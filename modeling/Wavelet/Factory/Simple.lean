import Mathlib.Data.List.Nodup

/-!
# Simple factories

`SimpleFactory` of `factory/simple.rs`. The attached function is taken out of its place before
it is called, by the first `get`, and its node goes into a `OnceCell`. The clones of the factory
share one `RefCell`, which stays mutably borrowed while the function runs.
-/

namespace Wavelet

/-- One call of an attached function. It may change `σ`, and call `get` and `attach` on a clone
of the factory; it goes on when it has caught their panics. -/
inductive SimpleFactory.Script (σ N : Type) where
  | ret (state : σ) (node : N)
  | unwind (state : σ)
  | get (state : σ) (resume : σ → Option N → Script σ N)
  | attach (state : σ) (f : σ → Script σ N) (resume : σ → Bool → Script σ N)

/-- `SimpleFactoryInner` in its `RefCell`. The ghosts are the number of a function, the number of
functions attached so far, the answers of `get`, `none` for a panic, and the numbers of the
functions that were called; both newest first. -/
structure SimpleFactory (σ N : Type) where
  node : Option N
  factory : Option (Nat × (σ → SimpleFactory.Script σ N))
  borrowed : Bool
  attached : Nat
  answers : List (Option N)
  called : List Nat

namespace SimpleFactory

variable {σ N : Type}

/-- `SimpleFactory::default`. -/
def default : SimpleFactory σ N := ⟨none, none, false, 0, [], []⟩

/-- `attach`; `none` is a panic. A function that has been taken is no longer in the way. -/
def attach (m : SimpleFactory σ N) (f : σ → Script σ N) : Option (SimpleFactory σ N) :=
  if m.borrowed ∨ m.factory.isSome then none
  else some { m with factory := some (m.attached, f), attached := m.attached + 1 }

def note (m : SimpleFactory σ N) (answer : Option N) : SimpleFactory σ N :=
  { m with answers := answer :: m.answers }

/-- `factory.take()`, for a call of the function. -/
def take (m : SimpleFactory σ N) (number : Nat) : SimpleFactory σ N :=
  { m with factory := none, borrowed := true, called := number :: m.called }

/-- The end of the borrow. A call that panicked leaves the cell empty. -/
def release (m : SimpleFactory σ N) (result : Option N) : SimpleFactory σ N :=
  { m with node := result, borrowed := false }

/-- The function runs, with `get` as given. -/
def runScript (get : SimpleFactory σ N → σ → Option (Option N × σ × SimpleFactory σ N)) :
    Script σ N → SimpleFactory σ N → Option (Option N × σ × SimpleFactory σ N)
  | .ret s node, m => some (some node, s, m)
  | .unwind s, m => some (none, s, m)
  | .get s resume, m => (get m s).bind fun after => runScript get (resume after.2.1 after.1) after.2.2
  | .attach s f resume, m =>
    match m.attach f with
    | some m => runScript get (resume s true) m
    | none => runScript get (resume s false) m

/-- `get`. The first argument bounds how deep calls of functions nest; with more of them the
result is `none`. -/
def get : Nat → SimpleFactory σ N → σ → Option (Option N × σ × SimpleFactory σ N)
  | depth, m, s =>
    if m.borrowed then some (none, s, m.note none)
    else
      match m.node with
      | some node => some (some node, s, m.note (some node))
      | none =>
        match m.factory with
        | none => some (none, s, m.note none)
        | some (number, f) =>
          match depth with
          | 0 => none
          | depth + 1 =>
            (runScript (get depth) (f s) (m.take number)).map fun after =>
              (after.1, after.2.1, (after.2.2.release after.1).note after.1)

/-- What the program calls, from outside. -/
inductive Call (σ N : Type) where
  | work (f : σ → σ)
  | attach (f : σ → Script σ N)
  | get

/-- A sequence of calls, each panic caught. -/
def run (depth : Nat) : List (Call σ N) → σ → SimpleFactory σ N → Option (σ × SimpleFactory σ N)
  | [], s, m => some (s, m)
  | .work f :: rest, s, m => run depth rest (f s) m
  | .attach f :: rest, s, m => run depth rest s ((m.attach f).getD m)
  | .get :: rest, s, m => (m.get depth s).bind fun after => run depth rest after.2.1 after.2.2

/-- What the call of a function comes to when its own calls panic. -/
def Script.alone : Script σ N → Option N × σ
  | .ret s node => (some node, s)
  | .unwind s => (none, s)
  | .get s resume => (resume s none).alone
  | .attach s _ resume => (resume s false).alone

/-! ## One call of the function -/

theorem get_borrowed {m : SimpleFactory σ N} (borrowed : m.borrowed = true) (depth : Nat) (s : σ) :
    m.get depth s = some (none, s, m.note none) := by
  cases depth <;> simp only [get, borrowed, if_true]

/-- While the cell is borrowed, the calls that the function makes panic, and change nothing. -/
theorem runScript_borrowed {m : SimpleFactory σ N} (borrowed : m.borrowed = true) (depth : Nat)
    (script : Script σ N) :
    ∃ count, runScript (get depth) script m =
      some (script.alone.1, script.alone.2,
      { m with answers := List.replicate count none ++ m.answers }) := by
  induction script generalizing m with
  | ret s node => exact ⟨0, rfl⟩
  | unwind s => exact ⟨0, rfl⟩
  | get s resume ih =>
    obtain ⟨count, runs⟩ := @ih s none (m.note none) borrowed
    refine ⟨count + 1, ?_⟩
    rw [runScript, get_borrowed borrowed]
    show runScript (get depth) (resume s none) (m.note none) = _
    rw [runs, List.replicate_succ', List.append_assoc]
    rfl
  | attach s f resume _ ih =>
    have refused : m.attach f = none := by simp [attach, borrowed]
    obtain ⟨count, runs⟩ := @ih s false m borrowed
    refine ⟨count, ?_⟩
    rw [runScript, refused]
    exact runs

/-! ## Calls from outside -/

/-- Between two calls from outside. The functions are called in the order in which they were
attached, and at most one of them waits. The panics come first, then the one node. -/
structure Lazy (m : SimpleFactory σ N) : Prop where
  free : m.borrowed = false
  waiting : ∀ pending ∈ m.factory, pending.1 = m.called.length
  attached : m.attached = m.called.length + m.factory.toList.length
  called : m.called.reverse = List.range m.called.length
  answers : ∃ hits misses, m.answers = hits ++ List.replicate misses none ∧
    (∀ answer ∈ hits, answer = m.node) ∧ (hits ≠ [] ↔ m.node.isSome)

theorem lazy_default : Lazy (default : SimpleFactory σ N) where
  free := rfl
  waiting _ pending := by cases pending
  attached := rfl
  called := rfl
  answers := ⟨[], 0, rfl, by simp, by simp [default]⟩

theorem Lazy.attach {m m' : SimpleFactory σ N} (held : Lazy m) {f : σ → Script σ N}
    (done : m.attach f = some m') : Lazy m' := by
  unfold SimpleFactory.attach at done
  split at done
  · cases done
  · rename_i clear
    have empty : m.factory = none := by simpa [held.free] using clear
    have count : m.attached = m.called.length := by simpa [empty] using held.attached
    injection done with done
    subst done
    constructor
    case free => exact held.free
    case waiting =>
      intro pending member
      injection member with member
      rw [← member]
      exact count
    case attached => exact congrArg (· + 1) count
    case called => exact held.called
    case answers => exact held.answers

/-- A panic, with nothing to answer it. -/
theorem Lazy.miss {m : SimpleFactory σ N} (held : Lazy m) (unmade : m.node = none) : Lazy (m.note none) where
  free := held.free
  waiting := held.waiting
  attached := held.attached
  called := held.called
  answers := by
    obtain ⟨hits, misses, answers, -, made⟩ := held.answers
    have none_yet : hits = [] := by
      by_contra some_hit
      simpa [unmade] using made.mp some_hit
    subst none_yet
    refine ⟨[], misses + 1, ?_, by simp, by simpa [note] using unmade⟩
    show none :: m.answers = _
    rw [answers]
    rfl

theorem Lazy.hit {m : SimpleFactory σ N} (held : Lazy m) {node : N} (made : m.node = some node) :
    Lazy (m.note (some node)) where
  free := held.free
  waiting := held.waiting
  attached := held.attached
  called := held.called
  answers := by
    obtain ⟨hits, misses, answers, same, -⟩ := held.answers
    refine ⟨some node :: hits, misses, ?_, ?_, by simp [note, made]⟩
    · show some node :: m.answers = _
      rw [answers]
      rfl
    · intro answer member
      rcases List.mem_cons.mp member with rfl | old
      · exact made.symm
      · exact same answer old

/-- The cell after a call of the waiting function. -/
theorem Lazy.call {m : SimpleFactory σ N} (held : Lazy m) (unmade : m.node = none) {number : Nat}
    {f : σ → Script σ N} (waiting : m.factory = some (number, f)) (result : Option N) (count : Nat) :
    Lazy ((({ m.take number with answers := List.replicate count none ++ m.answers } :
      SimpleFactory σ N).release result).note result) := by
  have this_one : number = m.called.length := held.waiting _ waiting
  obtain ⟨hits, misses, answers, -, made⟩ := held.answers
  have none_yet : hits = [] := by
    by_contra some_hit
    simpa [unmade] using made.mp some_hit
  subst none_yet
  have panics : List.replicate count none ++ m.answers = List.replicate (count + misses)
      (none : Option N) := by
    rw [answers, List.nil_append, List.replicate_append_replicate]
  constructor
  case free => rfl
  case waiting =>
    intro pending member
    cases member
  case attached =>
    have before := held.attached
    rw [waiting] at before
    exact before
  case called =>
    show (number :: m.called).reverse = List.range (m.called.length + 1)
    rw [List.reverse_cons, held.called, this_one, List.range_succ]
  case answers =>
    show ∃ hits misses, result :: (List.replicate count none ++ m.answers) = hits ++
      List.replicate misses none ∧
      (∀ answer ∈ hits, answer = result) ∧ (hits ≠ [] ↔ result.isSome)
    rw [panics]
    cases result with
    | none => exact ⟨[], count + misses + 1, rfl, by simp, by simp⟩
    | some node => exact ⟨[some node], count + misses, rfl, by simp, by simp⟩

/-- A `get` from outside: the node that is there, or what the waiting function makes. -/
theorem Lazy.get {m : SimpleFactory σ N} (held : Lazy m) (depth : Nat) (s : σ) :
    ∃ answer s' m', m.get (depth + 1) s = some (answer, s', m') ∧ Lazy m' ∧
      answer = (m.node <|> m.factory.bind fun pending => (pending.2 s).alone.1) ∧
      m'.node = answer ∧ (m.node.isSome → m'.called = m.called) := by
  cases there : m.node with
  | some node =>
    refine ⟨some node, s, m.note (some node), ?_, held.hit there, rfl, there, fun _ => rfl⟩
    simp only [SimpleFactory.get, held.free, there, Bool.false_eq_true, if_false]
  | none =>
    cases waiting : m.factory with
    | none =>
      refine ⟨none, s, m.note none, ?_, held.miss there, rfl, there, by simp⟩
      simp only [SimpleFactory.get, held.free, there, waiting, Bool.false_eq_true, if_false]
    | some pending =>
      obtain ⟨number, f⟩ := pending
      obtain ⟨count, runs⟩ := runScript_borrowed (m := m.take number) rfl depth (f s)
      refine ⟨(f s).alone.1, (f s).alone.2, _, ?_, held.call there waiting (f s).alone.1 count, rfl,
        rfl, by simp⟩
      simp only [SimpleFactory.get, held.free, there, waiting, Bool.false_eq_true, if_false, runs]
      rfl

/-- Calls from outside. Once there is a node it stays, and no function is called any more. -/
theorem Lazy.run {m : SimpleFactory σ N} (held : Lazy m) (depth : Nat) (calls : List (Call σ N)) (s : σ) :
    ∃ s' m', run (depth + 1) calls s m = some (s', m') ∧ Lazy m' ∧
      (m.node.isSome → m'.node = m.node ∧ m'.called = m.called) := by
  induction calls generalizing m s with
  | nil => exact ⟨s, m, rfl, held, fun _ => ⟨rfl, rfl⟩⟩
  | cons call rest ih =>
    cases call with
    | work f => exact ih held (f s)
    | attach f =>
      cases done : m.attach f with
      | none =>
        obtain ⟨s', m', runs, after, stays⟩ := ih held s
        refine ⟨s', m', ?_, after, stays⟩
        rw [SimpleFactory.run, done]
        exact runs
      | some next =>
        obtain ⟨s', m', runs, after, stays⟩ := ih (held.attach done) s
        have frame : next.node = m.node ∧ next.called = m.called := by
          unfold SimpleFactory.attach at done
          split at done
          · cases done
          · injection done with done
            subst done
            exact ⟨rfl, rfl⟩
        refine ⟨s', m', ?_, after, ?_⟩
        · rw [SimpleFactory.run, done]
          exact runs
        · rw [← frame.1, ← frame.2]
          exact stays
    | get =>
      obtain ⟨answer, mid, next, got, after, is_answer, holds, kept⟩ := held.get depth s
      obtain ⟨s', m', runs, done, stays⟩ := ih after mid
      refine ⟨s', m', ?_, done, ?_⟩
      · rw [SimpleFactory.run, got]
        exact runs
      · intro made
        have same : next.node = m.node := by
          rw [holds, is_answer]
          cases there : m.node with
          | some node => rfl
          | none => simp [there] at made
        obtain ⟨node, called⟩ := stays (same ▸ made)
        exact ⟨node.trans same, called.trans (kept made)⟩

/-- However the program interleaves its calls of `attach` and `get`: the functions run at most
once each, in the order in which they were attached, until one makes the node. From then on
every `get` gives that node, and no function runs, whatever is attached later. -/
theorem simple_factory_singleton (depth : Nat) (calls later : List (Call σ N)) (s : σ) :
    ∃ s' m, run (depth + 1) calls s default = some (s', m) ∧
      m.called.reverse = List.range m.called.length ∧
      m.attached = m.called.length + m.factory.toList.length ∧
      (∃ hits misses, m.answers = hits ++ List.replicate misses none ∧ (∀ answer ∈ hits, answer = m.node) ∧
        (hits ≠ [] ↔ m.node.isSome)) ∧
      (∃ s'' m', m.get (depth + 1) s' =
        some (m.node <|> m.factory.bind fun pending => (pending.2 s').alone.1, s'', m')) ∧
      (m.node.isSome → ∃ s'' m', run (depth + 1) later s' m = some (s'', m') ∧ m'.node = m.node ∧
      m'.called = m.called) := by
  obtain ⟨s', m, runs, held, -⟩ := (lazy_default (σ := σ) (N := N)).run depth calls s
  obtain ⟨answer, s'', m', got, -, is_answer, -, -⟩ := held.get depth s'
  refine ⟨s', m, runs, held.called, held.attached, held.answers, ⟨s'', m', is_answer ▸ got⟩, ?_⟩
  intro made
  obtain ⟨s'', m', more, -, stays⟩ := held.run depth later s'
  exact ⟨s'', m', more, stays made⟩

end SimpleFactory
end Wavelet
