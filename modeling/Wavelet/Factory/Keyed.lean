import Mathlib.Data.List.Basic

/-!
# Keyed factories

`KeyedFactory` of `factory/keyed.rs`. Its clones share one `RefCell`, and `get` keeps that
cell mutably borrowed while the attached function runs, so a `get` that the function makes
itself panics on the borrow. Without such calls the factory is a memo table: every key has
its function call once and the same node ever after.
-/

namespace Wavelet

/-- One call of the attached function. It may change `σ`, the executor together with all it
has captured, and ends with a node or lets a panic through. In between it may ask a clone of
the factory for other keys; it goes on with the node it gets, or with nothing when it caught
the panic of that call. -/
inductive Script (σ K N : Type) where
  | ret (state : σ) (node : N)
  | unwind (state : σ)
  | get (state : σ) (key : K) (resume : σ → Option N → Script σ K N)

/-- `KeyedFactoryInner` in its `RefCell`. Two fields are ghosts: what the calls of `get` gave
back, `none` for a panic, and the keys that the function was run for; both newest first. -/
structure KeyedFactory (σ K N : Type) where
  cache : List (K × N)
  factory : Option (σ → K → Script σ K N)
  borrowed : Bool
  asked : List (K × Option N)
  ran : List K

namespace KeyedFactory

variable {σ K N : Type}

/-- `KeyedFactory::default`. -/
def default : KeyedFactory σ K N := ⟨[], none, false, [], []⟩

/-- `attach`; `none` is a panic, on the borrow or on a function that is there already. -/
def attach (m : KeyedFactory σ K N) (f : σ → K → Script σ K N) : Option (KeyedFactory σ K N) :=
  if m.borrowed ∨ m.factory.isSome then none else some { m with factory := some f }

def note (m : KeyedFactory σ K N) (key : K) (result : Option N) : KeyedFactory σ K N :=
  { m with asked := (key, result) :: m.asked }

/-- The borrow that lasts while the function runs. -/
def borrow (m : KeyedFactory σ K N) (key : K) : KeyedFactory σ K N :=
  { m with borrowed := true, ran := key :: m.ran }

/-- The end of the borrow, with the entry filled unless the function panicked. -/
def release (m : KeyedFactory σ K N) (key : K) (result : Option N) : KeyedFactory σ K N :=
  { m with borrowed := false, cache := (result.map fun node => (key, node)).toList ++ m.cache }

/-- The function runs, with `get` as given. -/
def runScript (get : KeyedFactory σ K N → σ → K → Option (Option N × σ × KeyedFactory σ K N)) :
    Script σ K N → KeyedFactory σ K N → Option (Option N × σ × KeyedFactory σ K N)
  | .ret s node, m => some (some node, s, m)
  | .unwind s, m => some (none, s, m)
  | .get s key resume, m => (get m s key).bind fun after => runScript get (resume after.2.1 after.1) after.2.2

variable [DecidableEq K]

/-- `get`. The first argument bounds how deep calls of the function nest; with more of them
the result is `none`. -/
def get : Nat → KeyedFactory σ K N → σ → K → Option (Option N × σ × KeyedFactory σ K N)
  | depth, m, s, key =>
    if m.borrowed then some (none, s, m.note key none)
    else
      match m.cache.lookup key with
      | some node => some (some node, s, m.note key (some node))
      | none =>
        match m.factory with
        | none => some (none, s, m.note key none)
        | some f =>
          match depth with
          | 0 => none
          | depth + 1 =>
            (runScript (get depth) (f s key) (m.borrow key)).map fun (result, s, m) =>
              (result, s, (m.release key result).note key result)

/-- A sequence of calls; before each the program does some work of its own. -/
def gets (depth : Nat) : List ((σ → σ) × K) → σ → KeyedFactory σ K N → Option (σ × KeyedFactory σ K N)
  | [], s, m => some (s, m)
  | (work, key) :: rest, s, m =>
    (m.get depth (work s) key).bind fun after => gets depth rest after.2.1 after.2.2

/-- No call of `get` panicked, the function ran once for each key that was asked for, and the
calls for one key gave the same node. -/
structure Sound (m : KeyedFactory σ K N) : Prop where
  calm : ∀ e ∈ m.asked, e.2 ≠ none
  once : m.ran.Nodup
  runs : ∀ key, key ∈ m.ran ↔ ∃ e ∈ m.asked, e.1 = key
  same : ∀ e ∈ m.asked, ∀ e' ∈ m.asked, e.1 = e'.1 → e.2 = e'.2

end KeyedFactory

namespace Script

variable {σ K N : Type}

/-- The call of the function returns as long as its own calls of `get` do. -/
def Returns : Script σ K N → Prop
  | .ret _ _ => True
  | .unwind _ => False
  | .get _ _ resume => ∀ s node, (resume s (some node)).Returns

/-- The call of the function asks for another key. -/
def Asks : Script σ K N → Prop
  | .get .. => True
  | _ => False

/-- The keys it asks for satisfy `p`. -/
def AsksOnly (p : K → Prop) : Script σ K N → Prop
  | .get _ key resume => p key ∧ ∀ s node, (resume s node).AsksOnly p
  | _ => True

end Script

namespace KeyedFactory

variable {σ K N : Type} [DecidableEq K]

/-- On the requests, the function is a plain one: its first call for each key, from the state
that the calls before it leave, does not ask for another key. The keys in `seen` have had
their call. -/
def Plain (f : σ → K → Script σ K N) : List K → σ → List ((σ → σ) × K) → Prop
  | _, _, [] => True
  | seen, s, (work, key) :: rest =>
    if key ∈ seen then Plain f seen (work s) rest
    else
      match f (work s) key with
      | .ret s' _ => Plain f (key :: seen) s' rest
      | _ => False

/-! ## Calls made by the function -/

/-- The state of the cell moves on while it is borrowed. -/
structure Aside (m m' : KeyedFactory σ K N) : Prop where
  borrowed : m'.borrowed = true
  cache : m'.cache = m.cache
  factory : m'.factory = m.factory
  ran : m'.ran = m.ran
  asked : m.asked <:+ m'.asked

omit [DecidableEq K] in
theorem Aside.trans {m m' m'' : KeyedFactory σ K N} (one : Aside m m') (two : Aside m' m'') :
    Aside m m'' where
  borrowed := two.borrowed
  cache := two.cache.trans one.cache
  factory := two.factory.trans one.factory
  ran := two.ran.trans one.ran
  asked := one.asked.trans two.asked

theorem get_borrowed {m : KeyedFactory σ K N} (borrowed : m.borrowed = true) (depth : Nat) (s : σ) (key : K) :
    m.get depth s key = some (none, s, m.note key none) := by
  cases depth <;> simp only [get, borrowed, if_true]

omit [DecidableEq K] in
theorem note_aside {m : KeyedFactory σ K N} (borrowed : m.borrowed = true) (key : K) (result : Option N) :
    Aside m (m.note key result) :=
  ⟨borrowed, rfl, rfl, rfl, List.suffix_cons ..⟩

/-- While the cell is borrowed every call that the function makes panics. -/
theorem runScript_borrowed {m : KeyedFactory σ K N} (borrowed : m.borrowed = true) (depth : Nat)
    (script : Script σ K N) :
    ∃ result s' m', runScript (get depth) script m = some (result, s', m') ∧ Aside m m' ∧
      (script.Asks → ∃ key, (key, none) ∈ m'.asked) := by
  induction script generalizing m with
  | ret s node =>
    exact ⟨some node, s, m, rfl, ⟨borrowed, rfl, rfl, rfl, List.suffix_refl _⟩, fun no => no.elim⟩
  | unwind s =>
    exact ⟨none, s, m, rfl, ⟨borrowed, rfl, rfl, rfl, List.suffix_refl _⟩, fun no => no.elim⟩
  | get s key resume ih =>
    have noted := note_aside borrowed key none
    obtain ⟨result, s', m', runs, aside, -⟩ := ih s none noted.borrowed
    refine ⟨result, s', m', ?_, noted.trans aside, fun _ => ⟨key, ?_⟩⟩
    · rw [runScript, get_borrowed borrowed]
      exact runs
    · exact aside.asked.mem List.mem_cons_self

/-! ## One call from outside -/

/-- The cell between two calls from outside. -/
structure Open (f : σ → K → Script σ K N) (m : KeyedFactory σ K N) : Prop where
  factory : m.factory = some f
  free : m.borrowed = false

variable {f : σ → K → Script σ K N} {m : KeyedFactory σ K N}

theorem Open.get_hit (opened : Open f m) {key : K} {node : N} (hit : m.cache.lookup key = some node)
    (depth : Nat) (s : σ) :
    m.get depth s key = some (some node, s, m.note key (some node)) := by
  cases depth <;> simp only [get, opened.free, hit, Bool.false_eq_true, if_false]

theorem Open.get_miss (opened : Open f m) {key : K} (miss : m.cache.lookup key = none) (depth : Nat) (s : σ) :
    m.get (depth + 1) s key = (runScript (get depth) (f s key) (m.borrow key)).map fun (result, s, m) =>
      (result, s, (m.release key result).note key result) := by
  simp only [get, opened.free, opened.factory, miss, Bool.false_eq_true, if_false]

/-- A call from outside ends, whatever the function does. -/
theorem Open.get_ends (opened : Open f m) (depth : Nat) (s : σ) (key : K) :
    ∃ result s' m', m.get (depth + 1) s key = some (result, s', m') ∧ Open f m' ∧ m.asked <:+ m'.asked := by
  cases found : m.cache.lookup key with
  | some node =>
    exact ⟨_, _, _, opened.get_hit found _ s, ⟨opened.factory, opened.free⟩, List.suffix_cons ..⟩
  | none =>
    obtain ⟨result, s', m', runs, aside, -⟩ := runScript_borrowed (m := m.borrow key) rfl depth (f s key)
    refine ⟨result, s', (m'.release key result).note key result, ?_, ⟨?_, rfl⟩, ?_⟩
    · rw [opened.get_miss found, runs]
      rfl
    · exact aside.factory.trans opened.factory
    · exact aside.asked.trans (List.suffix_cons ..)

theorem Open.gets_ends (opened : Open f m) (depth : Nat) (requests : List ((σ → σ) × K)) (s : σ) :
    ∃ s' m', gets (depth + 1) requests s m = some (s', m') ∧ m.asked <:+ m'.asked := by
  induction requests generalizing m s with
  | nil => exact ⟨s, m, rfl, List.suffix_refl _⟩
  | cons request rest ih =>
    obtain ⟨work, key⟩ := request
    obtain ⟨result, mid, next, first, stays, grows⟩ := opened.get_ends depth (work s) key
    obtain ⟨s', m', later, more⟩ := ih stays mid
    refine ⟨s', m', ?_, grows.trans more⟩
    rw [gets, first]
    exact later

/-! ## The memo table -/

/-- As long as no call has panicked: the cache has the keys whose call was made, and every
answer was the cached node. -/
structure Memoized (f : σ → K → Script σ K N) (m : KeyedFactory σ K N) : Prop extends Open f m where
  once : m.ran.Nodup
  runs : ∀ key, key ∈ m.ran ↔ (m.cache.lookup key).isSome
  asks : ∀ key ∈ m.ran, ∃ e ∈ m.asked, e.1 = key
  answers : ∀ e ∈ m.asked, ∃ node, e.2 = some node ∧ m.cache.lookup e.1 = some node

theorem Memoized.sound (memo : Memoized f m) : m.Sound := by
  constructor
  case calm =>
    intro e member none
    obtain ⟨node, answer, -⟩ := memo.answers e member
    rw [answer] at none
    cases none
  case once => exact memo.once
  case runs =>
    intro key
    constructor
    · exact memo.asks key
    · rintro ⟨e, member, rfl⟩
      obtain ⟨node, -, cached⟩ := memo.answers e member
      rw [memo.runs, cached]
      rfl
  case same =>
    intro e member e' member' key
    obtain ⟨node, answer, cached⟩ := memo.answers e member
    obtain ⟨node', answer', cached'⟩ := memo.answers e' member'
    rw [key, cached'] at cached
    rw [answer, answer', cached]

theorem Memoized.hit (memo : Memoized f m) {key : K} {node : N} (cached : m.cache.lookup key = some node) :
    Memoized f (m.note key (some node)) where
  factory := memo.factory
  free := memo.free
  once := memo.once
  runs := memo.runs
  asks k ran := by
    obtain ⟨e, member, same⟩ := memo.asks k ran
    exact ⟨e, List.mem_cons_of_mem _ member, same⟩
  answers e member := by
    rcases List.mem_cons.mp member with rfl | old
    · exact ⟨node, rfl, cached⟩
    · exact memo.answers e old

/-- A first call that asks for no other key fills its entry. -/
theorem Memoized.miss (memo : Memoized f m) {key : K} (miss : m.cache.lookup key = none) (node : N) :
    Memoized f (((m.borrow key).release key (some node)).note key (some node)) := by
  have fresh : key ∉ m.ran := by
    rw [memo.runs, miss]
    simp
  have cached (k : K) : ((key, node) :: m.cache).lookup k =
      if k = key then some node else m.cache.lookup k := by
    by_cases same : k = key
    · subst same
      rw [List.lookup_cons_self, if_pos rfl]
    · rw [List.lookup_cons, beq_false_of_ne same, if_neg same]
  constructor
  case toOpen => exact ⟨memo.factory, rfl⟩
  case once => exact List.nodup_cons.mpr ⟨fresh, memo.once⟩
  case runs =>
    intro k
    show k ∈ key :: m.ran ↔ (((key, node) :: m.cache).lookup k).isSome
    rw [cached, List.mem_cons, memo.runs]
    split <;> simp [*]
  case asks =>
    intro k member
    rcases List.mem_cons.mp member with rfl | old
    · exact ⟨_, List.mem_cons_self, rfl⟩
    · obtain ⟨e, there, same⟩ := memo.asks k old
      exact ⟨e, List.mem_cons_of_mem _ there, same⟩
  case answers =>
    intro e member
    show ∃ n, e.2 = some n ∧ ((key, node) :: m.cache).lookup e.1 = some n
    rw [cached]
    rcases List.mem_cons.mp member with rfl | old
    · exact ⟨node, rfl, if_pos rfl⟩
    · obtain ⟨n, answer, found⟩ := memo.answers e old
      refine ⟨n, answer, ?_⟩
      rw [if_neg, found]
      rintro same
      rw [same, miss] at found
      cases found

/-- The calls for the requests keep to the memo table, or one of them panics. -/
theorem Memoized.gets (memo : Memoized f m) (returns : ∀ s key, (f s key).Returns) (depth : Nat)
    (requests : List ((σ → σ) × K)) (s : σ) :
    ∃ s' m', KeyedFactory.gets (depth + 1) requests s m = some (s', m') ∧
      (Plain f m.ran s requests → Memoized f m') ∧
      (¬ Plain f m.ran s requests → ∃ key, (key, none) ∈ m'.asked) := by
  induction requests generalizing m s with
  | nil => exact ⟨s, m, rfl, fun _ => memo, fun no => absurd trivial no⟩
  | cons request rest ih =>
    obtain ⟨work, key⟩ := request
    simp only [Plain, KeyedFactory.gets]
    cases found : m.cache.lookup key with
    | some node =>
      have seen : key ∈ m.ran := by
        rw [memo.runs, found]
        rfl
      rw [memo.toOpen.get_hit found, if_pos seen]
      exact ih (memo.hit found) (work s)
    | none =>
      have fresh : key ∉ m.ran := by
        rw [memo.runs, found]
        simp
      rw [memo.toOpen.get_miss found, if_neg fresh]
      cases calls : f (work s) key with
      | ret mid node => exact ih (memo.miss found node) mid
      | unwind mid =>
        have no := returns (work s) key
        rw [calls] at no
        exact no.elim
      | get mid other resume =>
        obtain ⟨result, last, next, runs, aside, panics⟩ :=
          runScript_borrowed (m := m.borrow key) rfl depth (Script.get mid other resume)
        have opened : Open f ((next.release key result).note key result) :=
          ⟨aside.factory.trans memo.factory, rfl⟩
        obtain ⟨s', m', later, grows⟩ := opened.gets_ends depth rest last
        obtain ⟨asked, panicked⟩ := panics trivial
        refine ⟨s', m', ?_, fun no => no.elim, fun _ => ⟨asked, grows.mem (List.mem_cons_of_mem _ panicked)⟩⟩
        rw [runs]
        exact later

/-- The factory memoizes, over a sequence of requests, if and only if the first call of the
function for each of their keys does not ask the factory for another key. -/
theorem memoizes_iff_plain (f : σ → K → Script σ K N) (returns : ∀ s key, (f s key).Returns) (depth : Nat)
    (requests : List ((σ → σ) × K)) (s : σ) :
    ∃ m s' m', (default : KeyedFactory σ K N).attach f = some m ∧
      gets (depth + 1) requests s m = some (s', m') ∧
      (m'.Sound ↔ Plain f [] s requests) := by
  have memo : Memoized f { (default : KeyedFactory σ K N) with factory := some f } := {
    factory := rfl
    free := rfl
    once := List.nodup_nil
    runs := by simp [default]
    asks := fun _ member => by cases member
    answers := fun _ member => by cases member }
  obtain ⟨s', m', runs, keeps, breaks⟩ := memo.gets returns depth requests s
  refine ⟨_, s', m', rfl, runs, ?_, fun plain => (keeps plain).sound⟩
  intro sound
  by_contra nested
  obtain ⟨key, panicked⟩ := breaks nested
  exact sound.calm _ panicked rfl

/-- Every key needs the node of the key before it, and takes it from what has been built so
far if it is there. -/
def climbing (built : List Nat) (key : Nat) : Script (List Nat) Nat Nat :=
  if key = 0 ∨ key - 1 ∈ built then .ret (key :: built) built.length
  else .get built (key - 1) fun built node =>
    match node with
    | some _ => .ret (key :: built) built.length
    | none => .unwind built

theorem climbing_returns (built : List Nat) (key : Nat) : (climbing built key).Returns := by
  unfold climbing
  split
  · trivial
  · exact fun _ _ => trivial

/-- From the bottom up every key is built once, however often it is asked for. -/
theorem climbing_memoizes :
    ∃ m s' m', (default : KeyedFactory (List Nat) Nat Nat).attach climbing = some m ∧
      gets 1 [(id, 0), (id, 1), (id, 1), (id, 2), (id, 0)] [] m = some (s', m') ∧
      (m'.Sound ↔ Plain climbing [] [] [(id, 0), (id, 1), (id, 1), (id, 2), (id, 0)]) ∧
      Plain climbing [] [] [(id, 0), (id, 1), (id, 1), (id, 2), (id, 0)] ∧ m'.ran = [2, 1, 0] := by
  have plain : Plain climbing [] [] [(id, 0), (id, 1), (id, 1), (id, 2), (id, 0)] := by simp [Plain, climbing]
  obtain ⟨m, s', m', attached, runs, sound⟩ :=
    memoizes_iff_plain climbing climbing_returns 0 [(id, 0), (id, 1), (id, 1), (id, 2), (id, 0)] []
  cases attached
  cases runs
  exact ⟨_, _, _, rfl, rfl, sound, plain, rfl⟩

/-- Every key needs the node of the key before it; the state counts the nodes built. -/
def ladder (built : Nat) : Nat → Script Nat Nat Nat
  | 0 => .ret (built + 1) built
  | key + 1 => .get built key fun built node =>
    match node with
    | some _ => .ret (built + 1) built
    | none => .unwind built

theorem ladder_returns (built key : Nat) : (ladder built key).Returns ∧
    (ladder built key).AsksOnly (· < key) := by
  cases key with
  | zero => exact ⟨trivial, trivial⟩
  | succ key =>
    refine ⟨fun _ _ => trivial, Nat.lt_succ_self key, fun built node => ?_⟩
    cases node <;> trivial

/-- The request for a key that needs one other key panics. -/
theorem ladder_panics :
    ∃ m s' m', (default : KeyedFactory Nat Nat Nat).attach ladder = some m ∧
      (∀ built key, (ladder built key).Returns ∧ (ladder built key).AsksOnly (· < key)) ∧
      gets 2 [(id, 1)] 0 m = some (s', m') ∧ (1, none) ∈ m'.asked ∧ ¬ m'.Sound := by
  refine ⟨_, _, _, rfl, ladder_returns, rfl, List.mem_cons_self, fun sound => ?_⟩
  exact sound.calm (1, none) List.mem_cons_self rfl

end KeyedFactory
end Wavelet
