import Wavelet.Lib.Firsts
import Wavelet.Wsnl.Switch
import Wavelet.Wsnl.Transform

/-!
# Streams

The nodes of `transform.rs`: filters, deduplication and the two accumulators. All of them make
their data of the batch of one parent, in the cycles in which it broadcasts and only in these. So
what a node holds is what the batches make of it that its parent has broadcast, one after the
other.
-/

namespace Wavelet

variable {W T K A B : Type}

/-- What a node makes of its data and a batch, or what is left when a function of the user
panics. -/
abbrev Transform (T B : Type) := B → List T → Except B B

/-! ## The four nodes -/

/-- One item in `filter_stream_node`. A predicate that panics answers `none`. -/
def filterItem (predicate : T → Option Bool) (this : List T) (item : T) : Except (List T) (List T) :=
  match predicate item with
  | some keep => .ok (if keep then this ++ [item] else this)
  | none => .error this

def filterItems (predicate : T → Option Bool) : Transform T (List T) :=
  fun _ batch => batch.foldlM (filterItem predicate) []

/-- One item in `deduplicate_stream_node`: `seen` and the data of the node. -/
def deduplicateItem [DecidableEq K] (keyFn : T → Option K) (state : List K × List T) (item : T) :
    Except (List T) (List K × List T) :=
  match keyFn item with
  | some key => .ok (if key ∈ state.1 then state else (key :: state.1, state.2 ++ [item]))
  | none => .error state.2

/-- `seen` is cleared at the start of every run. -/
def deduplicateItems [DecidableEq K] (keyFn : T → Option K) : Transform T (List T) :=
  fun _ batch => (batch.foldlM (deduplicateItem keyFn) ([], [])).map (·.2)

def accumulateItems (fold : A → T → Except A A) : Transform T A := fun value batch => batch.foldlM fold value

/-- `initial` is `A::default()`. -/
def accumulateWithReset (initial : A) (fold : A → T → Except A A) : Transform T A :=
  fun _ batch => batch.foldlM fold initial

section Cycle

variable (own : Cell W B) (parent : Node W (List T)) (step : Transform T B) (answer : B → Control)

/-- The cycle function that they have in common. -/
def transformStream (ex : Executor W) (_ : ExecutionContext) : List (Effect W) × Outcome :=
  match step (own.get ex.world) (parent.borrow ex.world) with
  | .ok value => ([.handle (.update (own.put value))], .ret (answer value))
  | .error value => ([.handle (.update (own.put value))], .panic)

theorem transformStream_effects {ex : Executor W} {ctx : ExecutionContext} {effect : Effect W}
    (member : effect ∈ (transformStream own parent step answer ex ctx).1) :
    ∃ value, effect = .handle (.update (own.put value)) := by
  unfold transformStream at member
  split at member
  · exact ⟨_, List.mem_singleton.mp member⟩
  · exact ⟨_, List.mem_singleton.mp member⟩

end Cycle

section Nodes

variable (parent : Node W (List T)) (index : NodeIndex) (order : HashOrder)

/-- The cycle function of `filter_stream_node`. -/
def filterStream (own : Cell W (List T)) (predicate : T → Option Bool) :
    Executor W → ExecutionContext → List (Effect W) × Outcome :=
  transformStream own parent (filterItems predicate) streamAnswer

def filterStreamNode (own : Cell W (List T)) : List (ExecOp W) :=
  construct (own.put []) (accumulateArgs parent index order)

/-- The cycle function of `deduplicate_stream_node`. -/
def deduplicateStream [DecidableEq K] (own : Cell W (List T)) (keyFn : T → Option K) :
    Executor W → ExecutionContext → List (Effect W) × Outcome :=
  transformStream own parent (deduplicateItems keyFn) streamAnswer

def deduplicateStreamNode (own : Cell W (List T)) : List (ExecOp W) :=
  construct (own.put []) (accumulateArgs parent index order)

/-- The cycle function of `accumulate_stream_with_reset_node`. -/
def accumulateStreamWithReset (own : Cell W A) (initial : A) (fold : A → T → Except A A) :
    Executor W → ExecutionContext → List (Effect W) × Outcome :=
  transformStream own parent (accumulateWithReset initial fold) fun _ => .broadcast

theorem accumulateStream_eq (own : Cell W A) (fold : A → T → Except A A) :
    accumulateStream own parent fold =
      transformStream own parent (accumulateItems fold) fun _ => .broadcast := rfl

end Nodes

/-! ### What they make of a batch -/

/-- A filter that does not panic. -/
theorem filterItems_ok {predicate : T → Option Bool} {before batch items : List T}
    (h : filterItems predicate before batch = .ok items) :
    items = batch.filter fun item => predicate item = some true := by
  have all : ∀ (batch start : List T), batch.foldlM (filterItem predicate) start = .ok items →
      items = start ++ batch.filter fun item => predicate item = some true := by
    intro batch
    induction batch with
    | nil =>
      intro start done
      cases done
      exact (List.append_nil _).symm
    | cons item rest ih =>
      intro start done
      rw [List.foldlM_cons] at done
      obtain ⟨mid, first, later⟩ := Steps.bind_ok' done
      rw [ih mid later]
      unfold filterItem at first
      split at first
      · rename_i keep told
        cases first
        cases keep <;> simp [told]
      · cases first
  exact all batch [] h

/-- The key of an item, if there is one. -/
theorem deduplicateItems_ok [DecidableEq K] {keyFn : T → Option K} {before batch items : List T}
    (h : deduplicateItems keyFn before batch = .ok items) : items = Firsts.firstPerKey keyFn batch := by
  obtain ⟨⟨seen, this⟩, done, rfl⟩ := Steps.map_ok h
  -- what was seen are the keys so far
  have all : ∀ (batch past : List T) (state : List K × List T), (∀ key, key ∈ state.1 ↔
      some key ∈ past.map keyFn) →
      state.2 = Firsts.firstPerKey keyFn past →
      batch.foldlM (deduplicateItem keyFn) state = .ok (seen, this) →
      this = Firsts.firstPerKey keyFn (past ++ batch) := by
    intro batch
    induction batch with
    | nil =>
      intro past state _ data done
      cases done
      rw [List.append_nil]
      exact data
    | cons item rest ih =>
      intro past state keys data done
      rw [List.foldlM_cons] at done
      obtain ⟨mid, first, later⟩ := Steps.bind_ok' done
      rw [List.append_cons]
      unfold deduplicateItem at first
      split at first
      · rename_i key told
        cases first
        refine ih (past ++ [item]) _ (fun key' => ?_) ?_ later
        · split
          · rename_i known
            rw [keys, List.map_append, List.mem_append]
            refine (or_iff_left_of_imp fun here => ?_).symm
            rw [List.map_singleton, List.mem_singleton, told] at here
            rw [here]
            exact (keys key).mp known
          · rw [List.mem_cons, keys, List.map_append, List.mem_append, or_comm]
            simp [told]
        · rw [Firsts.firstPerKey_concat, ← data, told]
          split
          · rename_i known
            rw [if_pos ((keys key).mp known), List.append_nil]
          · rename_i new
            rw [if_neg fun known => new ((keys key).mpr known)]
      · cases first
  exact all batch [] ([], []) (fun key => by simp) rfl done

/-- A filter or a deduplication. -/
inductive StageKind (T : Type) : Type 1
  | filter (predicate : T → Option Bool)
  | deduplicate {K : Type} [DecidableEq K] (keyFn : T → Option K)

namespace StageKind

def transform : StageKind T → Transform T (List T)
  | filter predicate => filterItems predicate
  | deduplicate keyFn => deduplicateItems keyFn

/-- What a run that does not panic shows of a batch. -/
def view : StageKind T → List T → List T
  | filter predicate => fun batch => batch.filter fun item => predicate item = some true
  | deduplicate keyFn => Firsts.firstPerKey keyFn

theorem eq_view {kind : StageKind T} {before batch items : List T}
    (h : kind.transform before batch = .ok items) :
    items = kind.view batch := by
  cases kind with
  | filter predicate => exact @filterItems_ok T predicate before batch items h
  | deduplicate keyFn => exact @deduplicateItems_ok T _ _ keyFn before batch items h

end StageKind

/-! ## In a cycle -/

section Life

variable (own : Cell W B) (parent : Node W (List T)) (step : Transform T B) (answer : B → Control)

/-- Node `c` of the program is such a node, and the data of the two nodes is their own. -/
structure Program.Transforms (prog : Program W) (c : Key) : Prop where
  runs : ∀ ex ctx, prog.cycleFn ex ctx c = transformStream own parent step answer ex ctx
  spares : prog.Spares own c
  parent : prog.Encloses parent

/-- In the lives of these manners nothing but its parent makes the node run. -/
structure Manners.Feed (manners : Manners W) (c : Key) : Prop where
  running : manners.Running
  legal : ∀ prog, manners.legal prog → prog.Transforms own parent step answer c
  polite : ∀ op, manners.polite op → op.Leaves own
  fine : ∀ prog input ex last, manners.fine prog input ex last → ex.Unaddressed prog input (ex.inner c).index

/-- The node was made by its constructor on a parent in the graph, some time ago. -/
def TransformMade (c : Key) (ex : Executor W) : Prop :=
  ∃ prog initial index order before first, prog.Transforms own parent step answer c ∧
    before.Present parent.key ∧
    Executor.Constructed prog (own.put initial) (accumulateArgs parent index order) c before first ∧
    Executor.Path first ex

end Life

namespace Executor

variable {own : Cell W B} {parent : Node W (List T)} {step : Transform T B} {answer : B → Control}
  {c : Key} {prog : Program W}
  {now : CycleTime}

/-- One run: the cycle function is called or it is not. -/
def Makes (step : Transform T B) (answer : B → Control) (batch : List T) (before : B)
    (verdict : Verdict) (after : B) : Prop :=
  (verdict = .poisoned ∨ verdict = .noHandle) ∧ after = before ∨
    verdict = .returned (answer after) ∧ step before batch = .ok after

/-- In a cycle: the node makes its data of the batch if its parent broadcasts, and leaves them
otherwise. -/
structure Transformed (own : Cell W B) (parent : Node W (List T)) (step : Transform T B)
    (answer : B → Control) (c : Key) (start : W) (last : Executor W) : Prop where
  value : last.HasBroadcast parent.key → step (own.get start) (parent.borrow last.world) =
    .ok (own.get last.world)
  rests : ¬ last.HasBroadcast parent.key → own.get last.world = own.get start
  speaks : last.HasBroadcast c ↔ last.HasBroadcast parent.key ∧ answer (own.get last.world) = .broadcast

section Course

variable {seeded : Prop} {polled final : Executor W}

theorem Course.makes (course : Course prog now [parent.triggers] c seeded polled final)
    (transforms : prog.Transforms own parent step answer c)
    (unswept : ∀ run ∈ final.runs, run.node = c → ¬ run.Swept) :
    Steps.Trail (Makes step answer (parent.borrow final.world)) (own.get polled.world)
      (final.verdicts c) (own.get final.world) := by
  have listed : parent.triggers ∈ [parent.triggers] := List.mem_singleton_self _
  refine course.trail transforms.spares course.turns .refl (fun run member node panicked => ?_)
    (fun a verdict skipped => .inl ⟨skipped, rfl⟩) fun s i control sees answers => ?_
  · apply unswept run member node
    rw [Run.Swept, panicked]
    rfl
  · have batch : parent.borrow s.world = parent.borrow final.world := sees.data _ listed _ transforms.parent
    rw [transforms.runs] at answers ⊢
    rw [transformStream, batch] at answers ⊢
    cases made : step (own.get s.world) (parent.borrow final.world) with
    | ok value =>
      rw [made] at answers
      cases answers
      have written : own.get ([(.handle (.update (own.put value)) : Effect W)].foldl Effect.onWorld s.world) =
          value :=
        own.get_put value s.world
      constructor
      · intro effect member
        rw [List.mem_singleton.mp member]
        trivial
      · right
        rw [written]
        exact ⟨rfl, made⟩
    | error value =>
      rw [made] at answers
      cases answers

/-- A node that is not swept takes the batch of its parent once, if that broadcasts. -/
theorem Course.transforms (course : Course prog now [parent.triggers] c seeded polled final)
    (transforms : prog.Transforms own parent step answer c) (only : Only [parent.triggers] c polled)
    (unswept : ∀ run ∈ final.runs, run.node = c → ¬ run.Swept) (unseeded : ¬ seeded)
    (uncalled : ∀ calls mid, Turned prog now polled calls mid → (polled.inner c).index ∉ calls) :
    Transformed own parent step answer c polled.world final := by
  have trail := course.makes transforms unswept
  by_cases broadcast : final.HasBroadcast parent.key
  · obtain ⟨run, member, node⟩ := course.runs_of_broadcast (List.mem_singleton_self _) broadcast
    have listed : run.verdict ∈ final.verdicts c :=
      List.mem_map_of_mem (List.mem_filter.mpr ⟨member, by simpa using node⟩)
    have once := course.runs_once uncalled
    obtain ⟨verdict, single⟩ : ∃ verdict, final.verdicts c = [verdict] := by
      apply List.length_eq_one_iff.mp
      have some := List.length_pos_of_mem listed
      omega
    rw [single] at trail listed
    rcases trail.of_single with ⟨skipped, -⟩ | ⟨told, made⟩
    · rw [← List.mem_singleton.mp listed] at skipped
      rcases course.control_of_run member (unswept run member node) with unchanged | told
      · simp [unchanged] at skipped
      · simp [told] at skipped
    · refine ⟨fun _ => made, fun silent => absurd broadcast silent, ?_⟩
      rw [hasBroadcast_iff, single, told]
      simp [broadcast, eq_comm]
  · have none : final.verdicts c = [] := by
      rw [verdicts, List.map_eq_nil_iff, List.filter_eq_nil_iff]
      intro run member node
      replace node : run.node = c := by simpa using node
      obtain ⟨kr, declared, told⟩ :=
        course.broadcast_of_run only unseeded uncalled member node (unswept run member node)
      rw [List.mem_singleton.mp declared] at told
      exact broadcast told
    rw [none] at trail
    refine ⟨fun told => absurd told broadcast, fun _ => trail.eq_of_nil, ?_⟩
    rw [hasBroadcast_iff, none]
    simp [broadcast]

end Course

theorem Pass.transforms {fuel : Nat} {input : CycleInput} {ex last swept : Executor W}
    (pass : Pass prog fuel input ex last swept) (idle : ex.Idle) (few : ex.cycles + 1 < 2 ^ 64)
    (manuals : last.All Event.ManualPresent) (lineage : Lineage [parent.triggers] c ex)
    (only : Only [parent.triggers] c ex) (unaddressed : ex.Unaddressed prog input (ex.inner c).index)
    (transforms : prog.Transforms own parent step answer c) (survives : swept.Present c) :
    Transformed own parent step answer c ex.world last := by
  obtain ⟨now, polled, final, s, polls, rfl, course⟩ :=
    pass.course idle few manuals lineage (pass.present idle lineage.built survives)
  have index : (polled.inner c).index = (ex.inner c).index := by
    rw [inner_of_inners (inners_poll polls)]
    rfl
  have begun : Path ex polled := .head .begin (poll_path polls)
  have made := course.transforms transforms (begun.only lineage.built only)
    (pass.unswept idle lineage.built survives)
    unaddressed.events fun calls mid turned => by
      rw [index]
      exact unaddressed.calls now polled calls mid polls turned
  rw [world_poll polls] at made
  exact ⟨made.value, made.rests, made.speaks⟩

/-! ## Lives -/

/-- The batches that a node has broadcast. -/
def spoken (parent : Node W (List T)) (history : List (Executor W)) : List (List T) :=
  (history.filter fun last => last.HasBroadcast parent.key).map fun last => parent.borrow last.world

/-- What the node holds, and when it broadcasts. -/
structure Fed (own : Cell W B) (parent : Node W (List T)) (step : Transform T B)
    (answer : B → Control) (c : Key) (initial : B) (history : List (Executor W)) (w : W) : Prop where
  value : (spoken parent history).foldlM step initial = .ok (own.get w)
  speaks : ∀ last ∈ history, last.HasBroadcast c ↔ last.HasBroadcast parent.key ∧
    answer (own.get last.world) = .broadcast
  each : ∀ last ∈ history, last.HasBroadcast parent.key →
    ∃ before, step before (parent.borrow last.world) = .ok (own.get last.world)

theorem Fed.pass {initial : B} {history : List (Executor W)} {start : W} {last : Executor W}
    (fed : Fed own parent step answer c initial history start)
    (made : Transformed own parent step answer c start last) :
    Fed own parent step answer c initial (history ++ [last]) last.world := by
  have either : ∀ {q : Executor W → Prop}, (∀ s ∈ history, q s) → q last → ∀ s ∈ history ++ [last], q s := by
    intro q old new s member
    rcases List.mem_append.mp member with past | here
    · exact old s past
    · rwa [List.mem_singleton.mp here]
  refine ⟨?_, either fed.speaks made.speaks, either fed.each fun told => ⟨_, made.value told⟩⟩
  by_cases told : last.HasBroadcast parent.key
  · have more : spoken parent (history ++ [last]) = spoken parent history ++ [parent.borrow last.world] := by
      simp [spoken, told]
    rw [more, List.foldlM_append, fed.value]
    show [parent.borrow last.world].foldlM step (own.get start) = _
    rw [List.foldlM_cons, made.value told]
    rfl
  · have same : spoken parent (history ++ [last]) = spoken parent history := by simp [spoken, told]
    rw [same, fed.value, made.rests told]

theorem transform_begins {ex : Executor W} (made : TransformMade own parent step answer c ex) :
    Lineage [parent.triggers] c ex ∧ Only [parent.triggers] c ex := by
  obtain ⟨prog, initial, index, order, before, first, transforms, present, constructed, path⟩ := made
  have lineage := constructed.lineage
  refine ⟨path.lineage lineage, path.only lineage.built (constructed.only fun kr declared => ?_)⟩
  rw [List.mem_singleton.mp declared]
  exact present

section Life

variable {manners : Manners W} {start : Executor W → Prop} {history : List (Executor W)}
  {ex : Executor W} {initial : B}

/-- As long as the node is in the graph, every cycle is as `Transformed` says. -/
theorem Life.transformed (life : Life manners start history ex) (feed : manners.Feed own parent step answer c)
    (begins : ∀ ex, start ex → ex.Idle ∧ TransformMade own parent step answer c ex)
    {p : List (Executor W) → W → Prop} (starts : ∀ ex, start ex → p [] ex.world)
    (looks : ∀ history w w', own.get w' = own.get w → p history w → p history w')
    (pass : ∀ history ex last, Transformed own parent step answer c ex last → p history ex →
      p (history ++ [last]) last.world) (present : ex.Present c) (few : ex.cycles < 2 ^ 64)
    (manuals : ex.All Event.ManualPresent) : p history ex.world := by
  refine life.data (c := c) (p := p) feed.running
    (fun ex here => ⟨(begins ex here).1, (transform_begins (begins ex here).2).1, starts ex here⟩)
    (fun prog history legal => ?_) (fun op history polite => ?_) ?_ present few manuals
  · exact Program.DropsKeep.of_left (feed.legal prog legal).spares.drops (looks history)
  · exact ExecOp.keeps_of_left (feed.polite op polite) (looks history)
  · intro prog fuel input history ex last swept life legal passes fine few manuals survives before
    obtain ⟨idle, lineage⟩ :=
      life.lineage feed.running fun ex here => ⟨(begins ex here).1, (transform_begins (begins ex here).2).1⟩
    obtain ⟨first, here, path⟩ := life.path fun ex here => (begins ex here).1.wf
    obtain ⟨lineage', only⟩ := transform_begins (begins first here).2
    exact pass history ex.world last
      (passes.transforms idle few manuals lineage (path.only lineage'.built only)
      (feed.fine prog input ex last fine) (feed.legal prog legal) survives) before

/-- What a node holds is what the batches of its parent have made of its first data. -/
theorem Life.fed (life : Life manners start history ex) (feed : manners.Feed own parent step answer c)
    (begins : ∀ ex, start ex → ex.Idle ∧ TransformMade own parent step answer c ex ∧
      own.get ex.world = initial) (present : ex.Present c) (few : ex.cycles < 2 ^ 64)
    (manuals : ex.All Event.ManualPresent) :
    Fed own parent step answer c initial history ex.world := by
  refine life.transformed (p := Fed own parent step answer c initial) feed
    (fun ex here => ⟨(begins ex here).1, (begins ex here).2.1⟩)
    (fun ex here => ?_) (fun history w w' same fed => ?_)
    (fun history ex last made fed => fed.pass made) present few manuals
  · refine ⟨?_, fun _ none => (by cases none), fun _ none => (by cases none)⟩
    rw [(begins ex here).2.2]
    rfl
  · exact ⟨by rw [fed.value, same], fed.speaks, fed.each⟩

end Life

/-- A source, its even items, these without repetitions, and what is made of them. -/
structure Flow where
  source : List Nat
  kept : List Nat
  unique : List Nat
  total : Nat
  deriving DecidableEq, Repr

def sourceFlow : Cell Flow (List Nat) :=
  ⟨Flow.source, fun items flow => { flow with source := items }, fun _ _ => rfl⟩

def keptFlow : Cell Flow (List Nat) :=
  ⟨Flow.kept, fun items flow => { flow with kept := items }, fun _ _ => rfl⟩

def uniqueFlow : Cell Flow (List Nat) :=
  ⟨Flow.unique, fun items flow => { flow with unique := items }, fun _ _ => rfl⟩

def totalFlow : Cell Flow Nat := ⟨Flow.total, fun total flow => { flow with total := total }, fun _ _ => rfl⟩

def evens : StageKind Nat := .filter fun item => some (item % 2 = 0)

def distinct : StageKind Nat := .deduplicate fun item => some item

/-- The source has a batch when the clock has moved. -/
def flowing (step : Transform Nat Nat) : Program Flow where
  cycleFn ex ctx k :=
    if k = 0 then
      if ctx.cycleTime.instant = 0 then ([], .ret .unchanged) else
        ([.handle (.update (sourceFlow.put [1, 2, 2, 4]))], .ret .broadcast)
    else if k = 1 then transformStream keptFlow ⟨0, sourceFlow⟩ evens.transform streamAnswer ex ctx
    else if k = 2 then transformStream uniqueFlow ⟨1, keptFlow⟩ distinct.transform streamAnswer ex ctx
    else if k = 3 then transformStream totalFlow ⟨2, uniqueFlow⟩ step (fun _ => .broadcast) ex ctx
    else ([], .ret .unchanged)
  onDrop _ _ := []
  spawnFn _ _ := []

/-- Each node of them changes its own data. -/
theorem flowing_effects {step : Transform Nat Nat} {ex : Executor Flow} {ctx : ExecutionContext}
    {k : Key} {effect : Effect Flow} (member : effect ∈ ((flowing step).cycleFn ex ctx k).1) :
    (k = 0 ∧ ∃ items, effect = .handle (.update (sourceFlow.put items))) ∨
      (k = 1 ∧ ∃ items, effect = .handle (.update (keptFlow.put items))) ∨
      (k = 2 ∧ ∃ items, effect = .handle (.update (uniqueFlow.put items))) ∨
      (k = 3 ∧ ∃ total, effect = .handle (.update (totalFlow.put total))) := by
  simp only [flowing] at member
  split_ifs at member with source late kept unique total
  · cases member
  · exact .inl ⟨source, _, List.mem_singleton.mp member⟩
  · exact .inr (.inl ⟨kept, transformStream_effects _ _ _ _ member⟩)
  · exact .inr (.inr (.inl ⟨unique, transformStream_effects _ _ _ _ member⟩))
  · exact .inr (.inr (.inr ⟨total, transformStream_effects _ _ _ _ member⟩))
  · cases member

theorem flowing_spares {B : Type} {step : Transform Nat Nat} {cell : Cell Flow B} {k : Key}
    (source : k ≠ 0 → sourceFlow.Apart cell) (kept : k ≠ 1 → keptFlow.Apart cell)
    (unique : k ≠ 2 → uniqueFlow.Apart cell) (total : k ≠ 3 → totalFlow.Apart cell) :
    (flowing step).Spares cell k := by
  refine ⟨fun v j other ex ctx data effect member => ?_, fun v ex k op member => ?_,
    fun v ex t op member => ?_⟩
  · rcases flowing_effects member with ⟨rfl, items, rfl⟩ | ⟨rfl, items, rfl⟩ | ⟨rfl, items, rfl⟩ |
      ⟨rfl, value, rfl⟩
    · exact fun w same => (source other.symm items w).trans same
    · exact fun w same => (kept other.symm items w).trans same
    · exact fun w same => (unique other.symm items w).trans same
    · exact fun w same => (total other.symm value w).trans same
  · cases member
  · cases member

theorem flowing_source {step : Transform Nat Nat} : (flowing step).Encloses ⟨0, sourceFlow⟩ :=
  flowing_spares (fun no => absurd rfl no) (fun _ _ _ => rfl) (fun _ _ _ => rfl) fun _ _ _ => rfl

theorem flowing_keeps {step : Transform Nat Nat} :
    (flowing step).Transforms keptFlow ⟨0, sourceFlow⟩ evens.transform streamAnswer 1 :=
  ⟨fun _ _ => rfl, flowing_spares (fun _ _ _ => rfl) (fun no => absurd rfl no)
    (fun _ _ _ => rfl) fun _ _ _ => rfl, flowing_source⟩

theorem flowing_deduplicates {step : Transform Nat Nat} :
    (flowing step).Transforms uniqueFlow ⟨1, keptFlow⟩ distinct.transform streamAnswer 2 :=
  ⟨fun _ _ => rfl, flowing_spares (fun _ _ _ => rfl) (fun _ _ _ => rfl)
    (fun no => absurd rfl no) fun _ _ _ => rfl, flowing_keeps.spares⟩

def dry : Executor Flow := withConfig { ioEnabled := false, timerEnabled := false } .spin ⟨[], [], [], 0⟩

end Executor
end Wavelet
