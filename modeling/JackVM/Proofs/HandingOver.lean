import JackVM.Proofs.TwoRuns

namespace JackVM

section Sinks

variable {σ : Type} [CodeSink σ]

/-- Puts code into a sink, one instruction after the other. It is given back as an error when it
refuses one, which is the last one that it is asked to take. -/
def handOver (k : σ) : List Instruction → Except σ σ
  | [] => .ok k
  | i :: code =>
    match CodeSink.put? k i with
    | some k' => handOver k' code
    | none => .error k

/-- The result of compiling with a sink, where it would be another one if nothing was refused. -/
def cutBy (result : Except CompileError Unit) : Except σ σ → Except CompileError Unit × σ
  | .ok k => (result, k)
  | .error k => (.error .refused, k)

/-- The sink takes this many instructions more, whatever they are, and then no other. -/
def RefusesAfter : Nat → σ → Prop
  | 0, k => ∀ i, CodeSink.put? k i = none
  | n + 1, k => ∀ i, ∃ k', CodeSink.put? k i = some k' ∧ RefusesAfter n k'

theorem refusesAfter_limited (inner : Array Instruction) (room : Nat) :
    RefusesAfter room (Limited.mk inner room) := by
  induction room generalizing inner with
  | zero => exact fun i => rfl
  | succ room ih => exact fun i => ⟨_, rfl, ih _⟩

variable [LoggedSink σ] {n : Nat} {k : σ} {code : List Instruction}

theorem RefusesAfter.handOver_of_le (h : RefusesAfter n k) (hn : code.length ≤ n) :
    ∃ k', handOver k code = .ok k' ∧ LoggedSink.log k' = LoggedSink.log k ++ code := by
  induction code generalizing n k with
  | nil => exact ⟨k, rfl, (List.append_nil _).symm⟩
  | cons i code ih =>
    cases n with
    | zero => simp at hn
    | succ n =>
      obtain ⟨mid, hmid, hrest⟩ := h i
      obtain ⟨k', hk', hlog⟩ := ih hrest (Nat.le_of_succ_le_succ hn)
      refine ⟨k', by simp [handOver, hmid, hk'], ?_⟩
      rw [hlog, LoggedSink.log_put? hmid, List.append_assoc, List.singleton_append]

theorem RefusesAfter.handOver_of_lt (h : RefusesAfter n k) (hn : n < code.length) :
    ∃ k', handOver k code = .error k' ∧ LoggedSink.log k' = LoggedSink.log k ++ code.take n := by
  induction code generalizing n k with
  | nil => simp at hn
  | cons i code ih =>
    cases n with
    | zero => exact ⟨k, by simp [handOver, h i], by simp⟩
    | succ n =>
      obtain ⟨mid, hmid, hrest⟩ := h i
      obtain ⟨k', hk', hlog⟩ := ih hrest (Nat.lt_of_succ_lt_succ hn)
      refine ⟨k', by simp [handOver, hmid, hk'], ?_⟩
      rw [hlog, LoggedSink.log_put? hmid, List.take_succ_cons, List.append_assoc,
        List.singleton_append]

end Sinks

/-- The same state with another sink. -/
def Compilation.withSink {σ σ' : Type} (s : Compilation σ) (k : σ') : Compilation σ' :=
  ⟨s.tokens, s.names, s.labels, s.className, s.routine, k⟩

/-- The same state where the code from here on is collected. -/
def Compilation.collecting {σ : Type} (s : Compilation σ) : Compilation (Array Instruction) :=
  s.withSink #[]

/-- How a run with a sink ends, from what came of handing over to it and how a run ended that
collected the code. -/
inductive Delivers {σ : Type} : Except σ σ →
    EStateM.Result CompileError (Compilation (Array Instruction)) Unit →
      EStateM.Result CompileError (Compilation σ) Unit → Prop
  | ok {s : Compilation (Array Instruction)} {k : σ} :
    Delivers (.ok k) (.ok () s) (.ok () (s.withSink k))
  | error {s : Compilation (Array Instruction)} {e : CompileError} {k : σ} :
    Delivers (.ok k) (.error e s) (.error e (s.withSink k))
  | refused {x : EStateM.Result CompileError (Compilation (Array Instruction)) Unit}
      {s : Compilation σ} : Delivers (.error s.sink) x (.error .refused s)

section Runs

variable {σ : Type} [CodeSink σ] {n : Nat} {s mid : Compilation (Array Instruction)} {k : σ}

/-- From a state the second part puts the code of the first until the sink refuses. -/
def HandsOver (x : Compiling (Array Instruction) Unit) (x' : Compiling σ Unit)
    (s : Compilation (Array Instruction)) (k : σ) : Prop :=
  ∃ code, (x.after s).sink.toList = s.sink.toList ++ code ∧
    Delivers (handOver k code) (x s) (x' (s.withSink k))

/-- It does so from all states where at most a number of tokens may come. -/
def AlwaysHandsOver (n : Nat) (x : Compiling (Array Instruction) Unit) (x' : Compiling σ Unit) :
    Prop :=
  ∀ s k, s.tokens.upcoming.length ≤ n → HandsOver x x' s k

theorem HandsOver.stop {x : Compiling (Array Instruction) Unit} {x' : Compiling σ Unit}
    {e : CompileError} (hx : x s = .error e mid)
    (hx' : x' (s.withSink k) = .error e (mid.withSink k)) (hs : mid.sink = s.sink) :
    HandsOver x x' s k := by
  refine ⟨[], ?_, ?_⟩
  · rw [CompilingFrom.after, hx, List.append_nil]
    exact congrArg Array.toList hs
  · rw [hx, hx']
    exact .error

/-- Steps that put nothing can be made before. -/
theorem HandsOver.step {α β : Type} {x : Compiling (Array Instruction) α} {x' : Compiling σ β}
    {f : α → Compiling (Array Instruction) Unit} {f' : β → Compiling σ Unit} {a : α} {b : β}
    (h : HandsOver (f a) (f' b) mid k) (hx : x s = .ok a mid)
    (hx' : x' (s.withSink k) = .ok b (mid.withSink k)) (hs : mid.sink = s.sink) :
    HandsOver (x >>= f) (x' >>= f') s k := by
  obtain ⟨code, hcode, hdelivers⟩ := h
  refine ⟨code, ?_, ?_⟩
  · rw [Compiling.after_of_ok hx, hcode, hs]
  · rw [Compiling.bind_of_ok hx, Compiling.bind_of_ok hx']
    exact hdelivers

theorem HandsOver.put_then {i : Instruction} {f : Unit → Compiling (Array Instruction) Unit}
    {f' : Unit → Compiling σ Unit}
    (h : ∀ k', HandsOver (f ()) (f' ()) { s with sink := s.sink.push i } k') :
    HandsOver (Compiling.put i >>= f) (Compiling.put i >>= f') s k := by
  have hput : Compiling.put i s = .ok () { s with sink := s.sink.push i } := rfl
  cases hk : CodeSink.put? k i with
  | some k' =>
    have hput' : Compiling.put i (s.withSink k) = .ok () (s.withSink k') := by
      simp [Compiling.put, Compilation.withSink, hk]
    obtain ⟨code, hcode, hdelivers⟩ := h k'
    refine ⟨i :: code, ?_, ?_⟩
    · rw [Compiling.after_of_ok hput, hcode, Array.toList_push, List.append_assoc,
        List.singleton_append]
    · have htake : handOver k (i :: code) = handOver k' code := by simp [handOver, hk]
      rw [Compiling.bind_of_ok hput, Compiling.bind_of_ok hput', htake]
      exact hdelivers
  | none =>
    have hput' : Compiling.put i (s.withSink k) = .error .refused (s.withSink k) := by
      simp [Compiling.put, Compilation.withSink, hk]
    obtain ⟨code, hcode, -⟩ := h k
    refine ⟨i :: code, ?_, ?_⟩
    · rw [Compiling.after_of_ok hput, hcode, Array.toList_push, List.append_assoc,
        List.singleton_append]
    · have hrefuse : handOver k (i :: code) = .error k := by simp [handOver, hk]
      rw [Compiling.bind_of_error hput', hrefuse]
      exact .refused (s := s.withSink k)

namespace AlwaysHandsOver

theorem stop {e : CompileError} : AlwaysHandsOver n (throw e) (throw e : Compiling σ Unit) :=
  fun _ _ _ => .stop rfl rfl rfl

theorem next?_then {f : Option Token → Compiling (Array Instruction) Unit}
    {f' : Option Token → Compiling σ Unit} (hend : ∀ n, AlwaysHandsOver n (f none) (f' none))
    (hf : ∀ k t, n = k + 1 → AlwaysHandsOver k (f (some t)) (f' (some t))) :
    AlwaysHandsOver n (Compiling.next? >>= f) (Compiling.next? >>= f') := by
  intro s k hn
  cases hs : s.tokens.next with
  | error e mid =>
    have hs' : (s.withSink k).tokens.next = .error e mid := hs
    exact .stop (Compiling.bind_of_error (Compiling.next?_of_error hs))
      (Compiling.bind_of_error (Compiling.next?_of_error hs')) rfl
  | ok t? mid =>
    have hs' : (s.withSink k).tokens.next = .ok t? mid := hs
    refine .step ?_ (Compiling.next?_of_ok hs) (Compiling.next?_of_ok hs') rfl
    cases t? with
    | none => exact hend _ _ _ (Nat.le_refl _)
    | some t =>
      have hcoming := congrArg List.length (TokenStream.upcoming_of_next hs).1
      rw [List.length_cons] at hcoming
      obtain ⟨j, rfl⟩ : ∃ j, n = j + 1 := ⟨n - 1, by omega⟩
      have hrest : mid.upcoming.length ≤ j := by omega
      exact hf j t rfl _ _ hrest

theorem next_then {f : Token → Compiling (Array Instruction) Unit} {f' : Token → Compiling σ Unit}
    (hf : ∀ k t, n = k + 1 → AlwaysHandsOver k (f t) (f' t)) :
    AlwaysHandsOver n (Compiling.next >>= f) (Compiling.next >>= f') := by
  unfold Compiling.next
  rw [bind_assoc, bind_assoc]
  exact next?_then (fun _ => stop) hf

theorem sourceEnd :
    AlwaysHandsOver n Compiling.sourceEnd (Compiling.sourceEnd : Compiling σ Unit) := by
  unfold Compiling.sourceEnd
  exact next?_then (fun _ _ _ _ => ⟨[], (List.append_nil _).symm, .ok⟩) fun _ _ _ => stop

end AlwaysHandsOver

/-- Parts of compiling that are in step differ only in what the sinks do. -/
theorem InStep.handsOver {α β : Type} {Q : α → β → Prop} {m : Nat}
    {x : Compiling (Array Instruction) α} {x' : Compiling σ β}
    {f : α → Compiling (Array Instruction) Unit} {f' : β → Compiling σ Unit}
    (hx : InStep .still Q n m x x')
    (hf : ∀ k a b, k + m ≤ n → Q a b → AlwaysHandsOver k (f a) (f' b)) :
    AlwaysHandsOver n (x >>= f) (x' >>= f') := by
  induction hx with
  | done h => exact hf _ _ _ (Nat.le_refl _) h
  | @stop _ _ e e' h =>
    obtain rfl : e = e' := by simpa [Drift.still] using h
    exact .stop
  | next_then _ ih =>
    rw [bind_assoc, bind_assoc]
    refine .next_then fun k t hk => ?_
    exact ih k t t hk ⟨rfl, rfl⟩ fun l a b hl => hf l a b (by omega)
  | names _ ih =>
    intro s k hn
    rw [bind_assoc, bind_assoc]
    exact .step (ih s.names hf s k hn) rfl rfl rfl
  | @setNames _ _ d _ _ _ ih =>
    intro s k hn
    rw [bind_assoc, bind_assoc]
    exact .step (ih hf { s with names := d } k hn) rfl rfl rfl
  | className _ ih =>
    intro s k hn
    rw [bind_assoc, bind_assoc]
    exact .step (ih s.className hf s k hn) rfl rfl rfl
  | @setClassName _ _ name _ _ _ ih =>
    intro s k hn
    rw [bind_assoc, bind_assoc]
    exact .step (ih hf { s with className := name } k hn) rfl rfl rfl
  | currentRoutine _ ih =>
    intro s k hn
    rw [bind_assoc, bind_assoc]
    exact .step (ih s.routine hf s k hn) rfl rfl rfl
  | @setRoutine _ _ r? _ _ _ ih =>
    intro s k hn
    rw [bind_assoc, bind_assoc]
    exact .step (ih hf { s with routine := r? } k hn) rfl rfl rfl
  | label _ ih =>
    intro s k hn
    rw [bind_assoc, bind_assoc]
    exact .step (ih _ hf { s with labels := ⟨s.labels.nextNumber + 1⟩ } k hn) rfl rfl rfl
  | put _ ih =>
    intro s k hn
    rw [bind_assoc, bind_assoc, Drift.still, Instruction.raise_zero]
    exact .put_then fun k' => ih hf _ k' hn

theorem wholeSource_handsOver {fuel : Nat} (hfuel : 2 * s.tokens.upcoming.length + 1 ≤ fuel) :
    HandsOver (Compiling.wholeSource fuel) (Compiling.wholeSource fuel) s k := by
  have hsource : AlwaysHandsOver s.tokens.upcoming.length (Compiling.wholeSource fuel)
      (Compiling.wholeSource fuel : Compiling σ Unit) := by
    rw [wholeSource_eq, wholeSource_eq, bind_assoc, bind_assoc]
    refine .next_then fun j t hj => ?_
    have hclass : InStep .still (fun _ _ => True) j 0
        (Compiling.classText fuel t : Compiling (Array Instruction) Unit)
        (Compiling.classText (0 + fuel) t : Compiling σ Unit) :=
      classText_inStep (by omega) ⟨rfl, rfl⟩
    rw [Nat.zero_add] at hclass
    exact hclass.handsOver fun _ _ _ _ _ => .sourceEnd
  exact hsource s k (Nat.le_refl _)

/-- A sink has no part in compiling a class but to take the code of it, or a part if it refuses an
instruction, which is the error then. -/
theorem compileClass_handsOver (s : Compilation σ) :
    (s.compileClass.1, s.compileClass.2.sink) = cutBy s.collecting.compileClass.1
      (handOver s.sink s.collecting.compileClass.2.sink.toList) := by
  obtain ⟨code, hcode, hdelivers⟩ := wholeSource_handsOver (s := s.collecting) (k := s.sink)
    (upcoming_le_depthBound s.tokens)
  have hcollected : s.collecting.compileClass.2.sink.toList = code := by
    rw [← compileClass_after]
    exact hcode
  have hself : s.collecting.withSink s.sink = s := rfl
  rw [hself] at hdelivers
  rw [hcollected]
  unfold Compilation.compileClass
  have hdepth : TokenSource.depthBound s.collecting.tokens = TokenSource.depthBound s.tokens := rfl
  rw [hdepth]
  generalize Compiling.wholeSource (TokenSource.depthBound s.tokens) s.collecting = x at hdelivers ⊢
  generalize Compiling.wholeSource (TokenSource.depthBound s.tokens) s = x' at hdelivers ⊢
  generalize handOver s.sink code = taken at hdelivers ⊢
  cases hdelivers with
  | ok => rfl
  | error => rfl
  | refused => rfl

end Runs

/-- How a source is compiled where nothing is refused, with all code that is put. -/
def compileAll (source : String) : Except CompileError Unit × List Instruction :=
  let (result, code) := compileTo source (#[] : Array Instruction)
  (result, code.toList)

section Cut

variable {σ : Type} [CodeSink σ]

theorem compileTo_eq_cutBy (source : String) (k : σ) :
    compileTo source k = cutBy (compileAll source).1 (handOver k (compileAll source).2) :=
  compileClass_handsOver (Compilation.ofText source k)

variable [LoggedSink σ]

/-- A sink gets the code of a source up to what it refuses. One that takes only some instructions
gets just as many, and that is the error if there are more. -/
theorem compileTo_cut (source : String) (k : σ) :
    compileTo source k = cutBy (compileAll source).1 (handOver k (compileAll source).2) ∧
    ∀ n, RefusesAfter n k →
      ((compileAll source).2.length ≤ n → (compileTo source k).1 = (compileAll source).1 ∧
        LoggedSink.log (compileTo source k).2 = LoggedSink.log k ++ (compileAll source).2) ∧
      (n < (compileAll source).2.length → (compileTo source k).1 = .error .refused ∧
        LoggedSink.log (compileTo source k).2 =
          LoggedSink.log k ++ (compileAll source).2.take n) := by
  refine ⟨compileTo_eq_cutBy source k, fun n hk => ⟨fun hn => ?_, fun hn => ?_⟩⟩
  · obtain ⟨k', hk', hlog⟩ := hk.handOver_of_le hn
    rw [compileTo_eq_cutBy source k, hk']
    exact ⟨rfl, hlog⟩
  · obtain ⟨k', hk', hlog⟩ := hk.handOver_of_lt hn
    rw [compileTo_eq_cutBy source k, hk']
    exact ⟨rfl, hlog⟩

end Cut

/-- A source with an error in it, and sinks with too little room and just enough. -/
theorem compileTo_cut_limited :
    let source := "class A { function void f() { do A.g(1); let x = 2; } }"
    let start := [Instruction.function "A.f" 0, .push .constant 1, .call "A.g" 1]
    ((compileTo source (Limited.mk (#[] : Array Instruction) 3)).1 = .error .refused ∧
      (compileTo source (Limited.mk (#[] : Array Instruction) 3)).2.inner.toList = start) ∧
    ((compileTo source (Limited.mk (#[] : Array Instruction) 4)).1 =
        .error (.undeclared 1 "x") ∧
      (compileTo source (Limited.mk (#[] : Array Instruction) 4)).2.inner.toList =
        start ++ [.pop .temp 0]) := by
  have hall : compileAll "class A { function void f() { do A.g(1); let x = 2; } }" =
      (.error (.undeclared 1 "x"),
        [.function "A.f" 0, .push .constant 1, .call "A.g" 1, .pop .temp 0]) := by decide +kernel
  have hsmall := (compileTo_cut "class A { function void f() { do A.g(1); let x = 2; } }"
    (Limited.mk (#[] : Array Instruction) 3)).2 3 (refusesAfter_limited _ 3)
  have hlarge := (compileTo_cut "class A { function void f() { do A.g(1); let x = 2; } }"
    (Limited.mk (#[] : Array Instruction) 4)).2 4 (refusesAfter_limited _ 4)
  rw [hall] at hsmall hlarge
  exact ⟨hsmall.2 (by decide), hlarge.1 (by decide)⟩

end JackVM
