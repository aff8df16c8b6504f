import Wavelet.Runtime.Loop

/-!
# Timers

`TimerDriver` on its own: a run of registrations, cancellations and polls against the plain
promise that a registration makes. A timer is outstanding from its registration until it is
cancelled or a poll finds it due, and a poll takes out exactly the outstanding timers that
are due.
-/

namespace Wavelet
namespace TimerDriver

def contains (d : TimerDriver) (source : TimerSource) : Bool := d.timers.entries.any fun t => t.1 = source

/-- The loop of `poll`: the timers it takes out, in their order. The bound is for the timers
that are left. -/
def expire (now : Nat) : Nat → TimerDriver → List (TimerSource × Ref) × TimerDriver
  | 0, d => ([], d)
  | n + 1, d =>
    match d.timers.popFirst with
    | none => ([], d)
    | some ((source, r), rest) =>
      if source.when ≤ now then
        let (taken, last) := expire now n { d with timers := rest }
        ((source, r) :: taken, last)
      else ([], d)

/-- `TimerDriver::poll`, without what it does to the scheduler. -/
def poll (d : TimerDriver) (now : Nat) : List (TimerSource × Ref) × TimerDriver :=
  d.expire now d.timers.entries.length

theorem contains_iff {d : TimerDriver} {source : TimerSource} :
    d.contains source = true ↔ ∃ r, (source, r) ∈ d.timers.entries := by
  simp [contains]

/-- What is taken out and what stays are the entries up to the first that is not due. -/
theorem expire_eq {now n : Nat} {d : TimerDriver} (enough : d.timers.entries.length ≤ n) :
    (d.expire now n).1 ++ (d.expire now n).2.timers.entries = d.timers.entries ∧
      (∀ t ∈ (d.expire now n).1, t.1.when ≤ now) ∧ (∀ t ∈ (d.expire now n).2.timers.entries, now < t.1.when) ∧
      (d.expire now n).2.sequence = d.sequence := by
  induction n generalizing d with
  | zero =>
    have none : d.timers.entries = [] := List.eq_nil_of_length_eq_zero (by omega)
    simp [expire, none]
  | succ n ih =>
    rw [expire]
    split
    · rename_i none
      have none := OrderedMap.popFirst_eq_none_iff.mp none
      simp [none]
    · rename_i source r rest popped
      have entries := OrderedMap.popFirst_eq_some_iff.mp popped
      split
      · rename_i due
        have left : rest.entries.length ≤ n := by
          rw [entries, List.length_cons] at enough
          omega
        obtain ⟨parts, early, late, sequence⟩ := @ih { d with timers := rest } left
        refine ⟨?_, ?_, late, sequence⟩
        · rw [entries, ← parts]
          rfl
        · intro t member
          rcases List.mem_cons.mp member with rfl | later
          · exact due
          · exact early t later
      · rename_i early
        refine ⟨rfl, fun t no => (by cases no), fun t member => ?_, rfl⟩
        have sorted := d.timers.sorted
        rw [entries] at member sorted
        rcases List.mem_cons.mp member with rfl | later
        · exact Nat.lt_of_not_le early
        · have after := (List.pairwise_cons.mp sorted).1 t later
          unfold TimerSource.Before at after
          dsimp only at after
          omega

theorem poll_eq (d : TimerDriver) (now : Nat) :
    (d.poll now).1 ++ (d.poll now).2.timers.entries = d.timers.entries ∧
      (∀ t ∈ (d.poll now).1, t.1.when ≤ now) ∧
      (∀ t ∈ (d.poll now).2.timers.entries, now < t.1.when) ∧ (d.poll now).2.sequence = d.sequence :=
  expire_eq (Nat.le_refl _)

theorem mem_taken_iff {d : TimerDriver} {now : Nat} {t : TimerSource × Ref} :
    t ∈ (d.poll now).1 ↔ t ∈ d.timers.entries ∧ t.1.when ≤ now := by
  obtain ⟨parts, early, late, -⟩ := d.poll_eq now
  rw [← parts, List.mem_append]
  constructor
  · intro member
    exact ⟨.inl member, early t member⟩
  · rintro ⟨taken | left, due⟩
    · exact taken
    · have := late t left
      omega

theorem mem_left_iff {d : TimerDriver} {now : Nat} {t : TimerSource × Ref} :
    t ∈ (d.poll now).2.timers.entries ↔ t ∈ d.timers.entries ∧ now < t.1.when := by
  obtain ⟨parts, early, late, -⟩ := d.poll_eq now
  rw [← parts, List.mem_append]
  constructor
  · intro member
    exact ⟨.inr member, late t member⟩
  · rintro ⟨taken | left, ahead⟩
    · have := early t taken
      omega
    · exact left

theorem taken_sorted (d : TimerDriver) (now : Nat) : (d.poll now).1.Pairwise fun a b => a.1.Before b.1 := by
  have sorted := d.timers.sorted
  rw [← (d.poll_eq now).1] at sorted
  exact (List.pairwise_append.mp sorted).1

/-- The first entry has the least deadline. -/
theorem nextTimer_eq_some {d : TimerDriver} {deadline : Nat} (next : d.nextTimer = some deadline) :
    (∃ t ∈ d.timers.entries, t.1.when = deadline) ∧ ∀ t ∈ d.timers.entries, deadline ≤ t.1.when := by
  obtain ⟨first, head, rfl⟩ := Option.map_eq_some_iff.mp next
  obtain ⟨rest, entries⟩ : ∃ rest, d.timers.entries = first :: rest := List.head?_eq_some_iff.mp head
  have sorted := d.timers.sorted
  rw [entries] at sorted ⊢
  constructor
  · exact ⟨first, List.mem_cons_self, rfl⟩
  · intro t member
    rcases List.mem_cons.mp member with rfl | later
    · exact Nat.le_refl _
    · have after := (List.pairwise_cons.mp sorted).1 t later
      unfold TimerSource.Before at after
      omega

theorem nextTimer_eq_none_iff {d : TimerDriver} : d.nextTimer = none ↔ d.timers.entries = [] := by
  simp [nextTimer, OrderedMap.first]

/-! ## The promise of a registration -/

/-- A call. -/
inductive Op where
  | register (r : Ref) (when : Nat)
  | deregister (source : TimerSource)
  | poll (now : Nat)
  deriving DecidableEq, Repr

def Op.Registers : Op → Prop
  | .register .. => True
  | _ => False

instance : DecidablePred Op.Registers
  | .register .. => .isTrue trivial
  | .deregister _ | .poll _ => .isFalse id

/-- The timers that the call takes out as due, and the driver after it. -/
def call (d : TimerDriver) : Op → List (TimerSource × Ref) × TimerDriver
  | .register r when => ([], d.registerTimer r when)
  | .deregister source => ([], d.deregisterTimer source)
  | .poll now => d.poll now

/-- The driver after the calls, oldest first. -/
def replay (past : List Op) : TimerDriver := past.foldl (fun d op => (d.call op).2) .new

def registrations (past : List Op) : Nat := past.countP fun op => decide op.Registers

/-- The timer was registered, as the one of its number, and since then it has not been
cancelled and no poll has found it due. -/
def Outstanding (past : List Op) (source : TimerSource) (r : Ref) : Prop :=
  ∃ before after, past = before ++ .register r source.when :: after ∧ source.id = registrations before ∧
    Op.deregister source ∉ after ∧ ∀ now, Op.poll now ∈ after → now < source.when

@[simp] theorem replay_nil : replay [] = .new := rfl

@[simp] theorem replay_append (past : List Op) (op : Op) :
    replay (past ++ [op]) = ((replay past).call op).2 := by
  simp [replay]

@[simp] theorem registrations_append (past more : List Op) :
    registrations (past ++ more) = registrations past + registrations more := List.countP_append ..

theorem Outstanding.id_lt {past : List Op} {source : TimerSource} {r : Ref} (h : Outstanding past source r) :
    source.id < registrations past := by
  obtain ⟨before, after, rfl, id, -⟩ := h
  have one : registrations (.register r source.when :: after) = registrations after + 1 :=
    List.countP_cons_of_pos rfl
  rw [registrations_append, one, id]
  omega

/-- One more call: the timer it registers is outstanding, the one it cancels is not any
more, nor are those that it finds due. -/
theorem outstanding_append {past : List Op} {op : Op} {source : TimerSource} {r : Ref} :
    Outstanding (past ++ [op]) source r ↔
      (op = .register r source.when ∧ source.id = registrations past) ∨
        (Outstanding past source r ∧ op ≠ .deregister source ∧ ∀ now, op = .poll now →
        now < source.when) := by
  constructor
  · rintro ⟨before, after, split, id, kept, early⟩
    rcases List.eq_nil_or_concat after with rfl | ⟨rest, last, rfl⟩
    · obtain ⟨rfl, same⟩ := List.append_inj' split rfl
      cases same
      exact .inl ⟨rfl, id⟩
    · rw [List.concat_eq_append, ← List.cons_append, ← List.append_assoc] at split
      obtain ⟨rfl, same⟩ := List.append_inj' split rfl
      cases same
      rw [List.concat_eq_append] at kept early
      refine .inr ⟨⟨before, rest, rfl, id, fun member => kept (List.mem_append_left _ member),
        fun now member => ?_⟩, ?_, ?_⟩
      · exact early now (List.mem_append_left _ member)
      · rintro rfl
        exact kept (List.mem_append_right _ List.mem_cons_self)
      · rintro now rfl
        exact early now (List.mem_append_right _ List.mem_cons_self)
  · rintro (⟨rfl, id⟩ | ⟨⟨before, after, rfl, id, kept, early⟩, other, ahead⟩)
    · exact ⟨past, [], rfl, id, fun no => (by cases no), fun _ no => (by cases no)⟩
    · refine ⟨before, after ++ [op], by simp, id, fun member => ?_, fun now member => ?_⟩
      · rcases List.mem_append.mp member with old | new
        · exact kept old
        · exact other (List.mem_singleton.mp new).symm
      · rcases List.mem_append.mp member with old | new
        · exact early now old
        · exact ahead now (List.mem_singleton.mp new).symm

/-- The driver holds the outstanding timers, and its sequence numbers them. -/
structure Tracks (past : List Op) (d : TimerDriver) : Prop where
  entries : ∀ source r, (source, r) ∈ d.timers.entries ↔ Outstanding past source r
  sequence : d.sequence = registrations past

theorem Tracks.call {past : List Op} {d : TimerDriver} (tracks : Tracks past d) (op : Op)
    (few : registrations (past ++ [op]) < 2 ^ 64) : Tracks (past ++ [op]) (d.call op).2 := by
  cases op with
  | register r' when =>
    have one : registrations [.register r' when] = 1 := rfl
    have fresh : ∀ t ∈ d.timers.entries, t.1 ≠ ⟨when, d.sequence⟩ := by
      rintro ⟨source, r⟩ member rfl
      have below := ((tracks.entries _ r).mp member).id_lt
      rw [tracks.sequence] at below
      exact Nat.lt_irrefl _ below
    constructor
    · intro source r
      show (source, r) ∈ (d.timers.insert ⟨when, d.sequence⟩ r').entries ↔ _
      rw [OrderedMap.mem_insert_iff fresh, tracks.entries, outstanding_append, tracks.sequence]
      obtain ⟨time, id⟩ := source
      simp only [Prod.mk.injEq, TimerSource.mk.injEq, Op.register.injEq, reduceCtorEq, ne_eq,
        not_false_eq_true, false_implies, implies_true, and_true]
      constructor
      · rintro (⟨⟨rfl, rfl⟩, rfl⟩ | old)
        · exact .inl ⟨⟨rfl, rfl⟩, rfl⟩
        · exact .inr old
      · rintro (⟨⟨rfl, rfl⟩, rfl⟩ | old)
        · exact .inl ⟨⟨rfl, rfl⟩, rfl⟩
        · exact .inr old
    · show (d.sequence + 1) % 2 ^ 64 = _
      rw [registrations_append, one] at few ⊢
      rw [tracks.sequence, Nat.mod_eq_of_lt few]
  | deregister gone =>
    constructor
    · intro source r
      show (source, r) ∈ (d.timers.erase gone).entries ↔ _
      rw [OrderedMap.mem_erase_iff, tracks.entries, outstanding_append]
      simp [eq_comm]
    · rw [registrations_append]
      exact tracks.sequence
  | poll now =>
    constructor
    · intro source r
      show (source, r) ∈ (d.poll now).2.timers.entries ↔ _
      rw [mem_left_iff, tracks.entries, outstanding_append]
      simp
    · rw [registrations_append]
      exact (d.poll_eq now).2.2.2.trans tracks.sequence

theorem tracks_replay {past : List Op} (few : registrations past < 2 ^ 64) : Tracks past (replay past) := by
  induction past using List.reverseRecOn with
  | nil =>
    constructor
    · intro source r
      constructor
      · intro no
        cases no
      · rintro ⟨before, after, split, -⟩
        simp at split
    · rfl
  | append_singleton past op ih =>
    rw [replay_append]
    refine (ih ?_).call op few
    rw [registrations_append] at few
    omega

/-- What is gone does not come back: a number is used once. -/
theorem outstanding_of_append {past more : List Op} {source : TimerSource} {r : Ref}
    (known : source.id < registrations past) (h : Outstanding (past ++ more) source r) :
    Outstanding past source r := by
  induction more using List.reverseRecOn with
  | nil => rwa [List.append_nil] at h
  | append_singleton more op ih =>
    rw [← List.append_assoc, outstanding_append] at h
    rcases h with ⟨-, id⟩ | ⟨old, -, -⟩
    · rw [registrations_append] at id
      omega
    · exact ih old

/-- The driver keeps the promises of the registrations in `past`. -/
structure Punctual (past : List Op) : Prop where
  /-- It holds the outstanding timers. -/
  contains : ∀ source, (replay past).contains source = true ↔ ∃ r, Outstanding past source r
  /-- A poll takes out those that are due, each once, by deadline and then by registration. -/
  taken : ∀ now source r, (source, r) ∈ ((replay past).poll now).1 ↔ Outstanding past source r ∧
    source.when ≤ now
  ordered : ∀ now, ((replay past).poll now).1.Pairwise fun a b => a.1.Before b.1
  /-- A cancelled timer is gone, and the others stay. -/
  cancelled : ∀ gone source r, (source, r) ∈ ((replay past).deregisterTimer gone).timers.entries ↔
    Outstanding past source r ∧ source ≠ gone
  /-- A registered timer that is gone is never taken out again. -/
  gone : ∀ source, source.id < registrations past → (replay past).contains source = false → ∀ more now r,
    registrations (past ++ more) < 2 ^ 64 → (source, r) ∉ ((replay (past ++ more)).poll now).1
  /-- The next timer is the earliest of the outstanding ones. -/
  next : (∀ deadline, (replay past).nextTimer = some deadline →
      (∃ source r, Outstanding past source r ∧ source.when = deadline) ∧
      ∀ source r, Outstanding past source r → deadline ≤ source.when) ∧
    ((replay past).nextTimer = none ↔ ∀ source r, ¬ Outstanding past source r)
  /-- After a poll it is still to come. -/
  ahead : ∀ now deadline, ((replay past).poll now).2.nextTimer = some deadline → now < deadline

/-- Timers fire once, in order and only when due. -/
theorem timers_punctual {past : List Op} (few : registrations past < 2 ^ 64) : Punctual past := by
  have tracks := tracks_replay few
  have held : ∀ source, (replay past).contains source = true ↔ ∃ r, Outstanding past source r := by
    intro source
    rw [contains_iff]
    simp only [tracks.entries]
  constructor
  case contains => exact held
  case taken =>
    intro now source r
    rw [mem_taken_iff, tracks.entries]
  case ordered => exact taken_sorted _
  case cancelled =>
    intro gone source r
    show (source, r) ∈ ((replay past).timers.erase gone).entries ↔ _
    rw [OrderedMap.mem_erase_iff, tracks.entries]
  case gone =>
    intro source known absent more now r fewer again
    rw [mem_taken_iff, (tracks_replay fewer).entries] at again
    have back := (held source).mpr ⟨r, outstanding_of_append known again.1⟩
    rw [absent] at back
    cases back
  case next =>
    constructor
    · intro deadline next
      obtain ⟨⟨⟨source, r⟩, member, here⟩, least⟩ := nextTimer_eq_some next
      refine ⟨⟨source, r, (tracks.entries source r).mp member, here⟩, fun source r outstanding => ?_⟩
      exact least (source, r) ((tracks.entries source r).mpr outstanding)
    · rw [nextTimer_eq_none_iff, List.eq_nil_iff_forall_not_mem]
      simp only [← tracks.entries, Prod.forall]
  case ahead =>
    intro now deadline next
    obtain ⟨⟨t, member, rfl⟩, -⟩ := nextTimer_eq_some next
    exact (mem_left_iff.mp member).2

/-- Two timers for one instant, the first of which is cancelled, and a clock that goes back. -/
def twins : List Op :=
  [.register ⟨0, some 0⟩ 5, .register ⟨1, some 1⟩ 5, .poll 4, .deregister ⟨5, 0⟩, .poll 2]

theorem twins_punctual : Punctual twins ∧ ((replay twins).poll 5).1 = [(⟨5, 1⟩, ⟨1, some 1⟩)] :=
  ⟨@timers_punctual twins (by decide), by decide⟩

end TimerDriver
end Wavelet
