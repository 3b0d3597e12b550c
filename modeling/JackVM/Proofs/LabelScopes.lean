import JackVM.Proofs.JumpTargets
import JackVM.Proofs.Productions

namespace JackVM

/-- Each label of some code marks one place and is where one jump goes, and the two belong to the
same subroutine. -/
structure LabelsMatch (code : List Instruction) : Prop where
  once {text : String} : text ∈ labelTexts code ∨ text ∈ targetTexts code →
    (labelTexts code).count text = 1 ∧ (targetTexts code).count text = 1
  together {text : String} : text ∈ labelTexts code →
    ∃ sub ∈ subroutines code, text ∈ labelTexts sub.body ∧ text ∈ targetTexts sub.body
  numbers : (labelNumbers code).Perm (List.range (labelNumbers code).length)

namespace ClassHead

variable (c : ClassHead)

theorem mem_labelsOf_routinesCode {rs : List RoutineTree} {n : Nat} {l : Label}
    (h : l ∈ labelsOf (c.routinesCode rs n)) : ∃ r m,
      ⟨s!"{c.name}.{r.name}", r.frameSize, c.bodyCode r m⟩ ∈ subroutines (c.routinesCode rs n) ∧
        l ∈ labelsOf (c.bodyCode r m) := by
  induction rs generalizing n with
  | nil => simp [routinesCode] at h
  | cons r rs ih =>
    rw [subroutines_routinesCode_cons]
    rw [routinesCode, labelsOf_append, List.mem_append] at h
    rcases h with h | h
    · exact ⟨r, n, by simp, by simpa [routineCode] using h⟩
    · obtain ⟨q, m, hq, hl⟩ := ih h
      exact ⟨q, m, List.mem_cons_of_mem _ hq, hl⟩

theorem labelsMatch_routinesCode (rs : List RoutineTree) :
    LabelsMatch (c.routinesCode rs 0) := by
  obtain ⟨k, hnumbers⟩ := c.labelNumbers_routinesCode rs 0
  have htargets := (c.targets_routinesCode rs 0).map Label.text
  have hnodup : (labelTexts (c.routinesCode rs 0)).Nodup :=
    nodup_labelTexts (hnumbers.nodup_iff.mpr List.nodup_range')
  constructor
  · intro text htext
    have hmem : text ∈ labelTexts (c.routinesCode rs 0) := htext.elim id htargets.mem_iff.mp
    have hcount := List.count_eq_one_of_mem hnodup hmem
    exact ⟨hcount, (htargets.count_eq text).trans hcount⟩
  · intro text htext
    obtain ⟨l, hl, rfl⟩ := List.mem_map.mp htext
    obtain ⟨r, m, hsub, hlabel⟩ := c.mem_labelsOf_routinesCode hl
    have htarget := (c.targets_bodyCode r m).mem_iff.mpr hlabel
    exact ⟨_, hsub, List.mem_map_of_mem hlabel, List.mem_map_of_mem htarget⟩
  · have hlength := hnumbers.length_eq
    rw [List.length_range'] at hlength
    rwa [hlength, List.range_eq_range']

end ClassHead

/-- The labels that were put and those that are owed have numbers of their own, none of which is
handed out again. -/
structure Numbered (code : List Instruction) (owed : List Nat) (next : Nat) : Prop where
  nodup : (labelNumbers code ++ owed).Nodup
  below : ∀ n ∈ labelNumbers code ++ owed, n < next

section Numbered

variable {T : Token → Prop} {d : Declarations} {code : List Instruction} {i : Instruction}
  {owed left : List Nat} {next : Nat}

/-- What is put takes its number from the owed ones. -/
theorem MayPut.labelNumbers (h : MayPut T d owed i left) :
    (labelNumbers [i] ++ left).Perm owed := by
  cases h with
  | integer | fixed | objectSize => exact .refl _
  | string ht htext hi =>
    have hs := straight_stringCode _ i hi
    have hstraight : Straight [i] := straight_cons.mpr ⟨hs, straight_nil⟩
    rw [hstraight.labelNumbers]
    exact .refl _
  | place hperm => exact hperm.symm
  | plain hi =>
    cases i with
    | label => cases hi
    | push | pop | op | goto | ifGoto | call | function | ret => exact .refl _

theorem Numbered.put (h : Numbered code owed next) (hi : MayPut T d owed i left) :
    Numbered (code ++ [i]) left next := by
  have hperm : (labelNumbers (code ++ [i]) ++ left).Perm (labelNumbers code ++ owed) := by
    rw [labelNumbers_append, List.append_assoc]
    exact hi.labelNumbers.append_left _
  exact ⟨hperm.nodup_iff.mpr h.nodup, fun n hn => h.below n (hperm.mem_iff.mp hn)⟩

theorem Numbered.number (h : Numbered code owed next) :
    Numbered code (next :: owed) (next + 1) := by
  have hperm : (labelNumbers code ++ next :: owed).Perm (next :: (labelNumbers code ++ owed)) :=
    List.perm_middle
  constructor
  · rw [hperm.nodup_iff, List.nodup_cons]
    exact ⟨fun hmem => Nat.lt_irrefl _ (h.below _ hmem), h.nodup⟩
  · intro n hn
    rcases List.mem_cons.mp (hperm.mem_iff.mp hn) with rfl | hn
    · exact Nat.lt_succ_self _
    · exact Nat.lt_succ_of_lt (h.below n hn)

/-- Labels that are owed when compiling stops are never put. -/
theorem Numbered.drop (h : Numbered code owed next) : Numbered code [] next := by
  have hsub : (labelNumbers code ++ []).Sublist (labelNumbers code ++ owed) :=
    (List.nil_sublist owed).append_left _
  exact ⟨h.nodup.sublist hsub, fun n hn => h.below n (hsub.subset hn)⟩

end Numbered

section Runs

variable {σ : Type} [CodeSink σ] [LoggedSink σ] {T : Token → Prop} {before : List Instruction}
  {p q : Progress σ}

/-- All that was put after some code keeps to numbers of its own. -/
def Progress.Numbered (before : List Instruction) (p : Progress σ) : Prop :=
  ∃ code, LoggedSink.log p.state.sink = before ++ code ∧
    JackVM.Numbered code p.owed p.state.labels.nextNumber

theorem Act.numbered (h : Act T p q) (hp : p.Numbered before) : q.Numbered before := by
  obtain ⟨code, hlog, hcode⟩ := hp
  cases h with
  | read | misread | unread | declare | enter | move => exact ⟨code, hlog, hcode⟩
  | number => exact ⟨code, hlog, hcode.number⟩
  | @put s _ _ i sink hi hsink =>
    exact ⟨code ++ [i], LoggedSink.log_eq_append hlog hsink, hcode.put hi⟩

theorem Run.numbered (h : Run T p q) (hp : p.Numbered before) : q.Numbered before := by
  induction h with
  | refl => exact hp
  | tail _ hact ih => exact hact.numbered ih

end Runs

namespace Compilation

variable {τ σ : Type} [TokenSource τ] [CodeSink σ]

/-- The state after going on so often with the next class, whether there was an error or not. -/
def afterCalls (s : Compilation σ τ) : Nat → Compilation σ τ
  | 0 => s
  | calls + 1 => (s.afterCalls calls).compileClass.2

variable [LoggedSink σ] {s : Compilation σ} {before : List Instruction}

/-- What is owed at the end of one class or at an error is forgotten, but its numbers are not used
again. -/
theorem numbered_compileClass (h : Progress.Numbered before ⟨s, []⟩) :
    Progress.Numbered before ⟨s.compileClass.2, []⟩ := by
  have hs : s.tokens.Offers fun _ => True := ⟨fun _ _ => trivial, fun _ _ => trivial⟩
  rcases compileClass_run hs with ⟨tokens, hafter, -⟩ | ⟨tokens, name, rest, -, hrun, -⟩
  · rw [hafter]
    exact h
  · have hafter : Progress.Numbered before ⟨s.compileClass.2, rest⟩ := hrun.numbered h
    obtain ⟨code, hlog, hcode⟩ := hafter
    exact ⟨code, hlog, hcode.drop⟩

theorem numbered_afterCalls (h : Progress.Numbered before ⟨s, []⟩) (calls : Nat) :
    Progress.Numbered before ⟨s.afterCalls calls, []⟩ := by
  induction calls with
  | zero => exact h
  | succ calls ih => exact numbered_compileClass ih

end Compilation

/-- In the code for a source each label belongs to one jump of the same subroutine, and however
often compiling is gone on with, even after errors, no label gets two places. -/
theorem labels_wellScoped (source : String) :
    (∀ code, compileInstructions source = .ok code → LabelsMatch code) ∧
    ∀ (σ : Type) [CodeSink σ] [LoggedSink σ] (sink : σ) (calls : Nat),
      ∃ code, LoggedSink.log ((Compilation.ofText source sink).afterCalls calls).sink =
          LoggedSink.log sink ++ code ∧ (labelTexts code).Nodup := by
  constructor
  · intro code h
    obtain ⟨c, -, -, rfl⟩ := reference_of_compileInstructions h
    exact c.labelsMatch_routinesCode c.routines
  · intro σ _ _ sink calls
    have hstart : Progress.Numbered (LoggedSink.log sink)
        ⟨Compilation.ofText source sink, []⟩ :=
      ⟨[], by simp [Compilation.ofText], by simp, by simp⟩
    obtain ⟨code, hlog, hcode⟩ := Compilation.numbered_afterCalls hstart calls
    have hnodup : (labelNumbers code).Nodup := by simpa using hcode.nodup
    exact ⟨code, hlog, nodup_labelTexts hnodup⟩

/-- A source whose code fits, and a sink that takes only the start of it and is gone on with. -/
theorem wellScoped_countdown :
    LabelsMatch (.function countdown.name countdown.locals :: countdown.body) ∧
      ∃ code, (((Compilation.ofText countdownSource (Limited.mk #[Instruction.ret] 3)).afterCalls
        2).sink).inner.toList = .ret :: code ∧ (labelTexts code).Nodup :=
  ⟨(labels_wellScoped countdownSource).1 _ compile_countdown,
    (labels_wellScoped countdownSource).2 _ (Limited.mk #[Instruction.ret] 3) 2⟩

end JackVM
