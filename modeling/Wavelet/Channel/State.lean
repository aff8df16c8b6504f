import Mathlib.Algebra.Order.Ring.Nat
import Wavelet.Lib.BoundedQueue

/-!
# Channels

A channel is a bounded queue and two counters. Any number of `Sender` handles and one
`Receiver` work on it at the same time: a send loads the receiver count, pushes its item
and notifies the receiving node; `try_receive` pops, and loads the sender count when it
found nothing. `step` does one such atomic access, so a run of steps is an interleaving.
-/

namespace Wavelet

/-- `Channel`. -/
structure Channel (α : Type) where
  queue : BoundedQueue α
  senders : Nat
  receivers : Nat

namespace Channel

variable {α : Type}

/-- `AtomicUsize::fetch_add(1)`. -/
def fetchAdd (n : Nat) : Nat := (n + 1) % 2 ^ 64

/-- `AtomicUsize::fetch_sub(1)`. -/
def fetchSub (n : Nat) : Nat := if n = 0 then 2 ^ 64 - 1 else n - 1

/-- An `Arc` that is cloned past this count aborts the process. -/
def maxRefcount : Nat := 2 ^ 63 - 1

/-- `Channel::new`; `ArrayQueue::new` panics on capacity zero. -/
def new (capacity : Nat) : Option (Channel α) :=
  if capacity = 0 then none else some ⟨.empty capacity, 1, 1⟩

inductive TrySendError (α : Type)
  | channelClosed (item : α)
  | channelFull (item : α)

inductive TryReceiveError
  | empty
  | channelClosed

/-- The three ways to send. -/
inductive Send
  | trySend
  | blockingSend
  | forceSend

/-- The next access of a send. -/
inductive Phase
  | load
  | push
  | notify

/-- A send in flight; it borrows the handle `sender`. -/
structure Call (α : Type) where
  sender : Nat
  send : Send
  item : α
  phase : Phase

/-- The receiver: between two calls, between the pop and the load of one, or gone. -/
inductive Receiver
  | idle
  | emptied
  | dropped

/-- How an item left the queue. -/
inductive Fate
  | received
  | evicted

/-- A channel and the parties at work on it. The last three fields are history. -/
structure System (α : Type) where
  chan : Channel α
  /-- The `Sender` handles that are not dropped. -/
  alive : List Nat
  born : Nat
  calls : List (Call α)
  receiver : Receiver
  /-- Every item that a send pushed, oldest first. -/
  sent : List α
  /-- Every item that left the queue, oldest first. -/
  left : List (Fate × α)
  /-- The pushes since the receiver's last pop. -/
  pushed : Nat

inductive Action (α : Type)
  | start (sender : Nat) (send : Send) (item : α)
  | advance (call : Nat)
  | clone (sender : Nat)
  | drop (sender : Nat)
  | receive
  | dropReceiver

/-- What a step lets its caller see. A `ChannelClosed` of `blocking_send` or `force_send`
is `channelClosed` here. -/
inductive Event (α : Type)
  | silent
  | sent (result : Except (TrySendError α) Unit)
  | received (result : Except TryReceiveError α)
  | droppedSender (notify : Bool)

namespace System

/-- A new channel with its first handle, numbered 0, and its receiver. -/
def new (capacity : Nat) : Option (System α) :=
  (Channel.new capacity).map fun chan => ⟨chan, [0], 1, [], .idle, [], [], 0⟩

/-- The queue took `item`, and gave up what `evicted` holds. -/
def accept (s : System α) (queue : BoundedQueue α) (item : α) (evicted : Option α) : System α :=
  { s with
    chan := { s.chan with queue }
    sent := s.sent ++ [item]
    left := s.left ++ evicted.toList.map fun item => (.evicted, item)
    pushed := s.pushed + 1 }

def setPhase (s : System α) (n : Nat) (call : Call α) (phase : Phase) : System α :=
  { s with calls := s.calls.set n { call with phase } }

def finish (s : System α) (n : Nat) : System α := { s with calls := s.calls.eraseIdx n }

/-- The push of a send. `try_send` gives the item back when the queue is full,
`blocking_send` snoozes and starts again, `force_send` evicts the oldest item. -/
def push (s : System α) (n : Nat) (call : Call α) : Event α × System α :=
  match call.send with
  | .trySend =>
    match s.chan.queue.push call.item with
    | some queue => (.silent, (s.accept queue call.item none).setPhase n call .notify)
    | none => (.sent (.error (.channelFull call.item)), s.finish n)
  | .blockingSend =>
    match s.chan.queue.push call.item with
    | some queue => (.silent, (s.accept queue call.item none).setPhase n call .notify)
    | none => (.silent, s.setPhase n call .load)
  | .forceSend =>
    let (evicted, queue) := s.chan.queue.forcePush call.item
    (.silent, (s.accept queue call.item evicted).setPhase n call .notify)

/-- The next access of the `n`-th send, `call`. -/
def turn (s : System α) (n : Nat) (call : Call α) : Event α × System α :=
  match call.phase with
  | .load =>
    if s.chan.receivers = 0 then (.sent (.error (.channelClosed call.item)), s.finish n)
    else (.silent, s.setPhase n call .push)
  | .push => s.push n call
  | .notify => (.sent (.ok ()), s.finish n)

/-- `try_receive`: the pop, then the load of the sender count. -/
def receive (s : System α) : Option (Event α × System α) :=
  match s.receiver with
  | .idle =>
    match s.chan.queue.pop with
    | some (item, queue) =>
      some (.received (.ok item),
        { s with chan := { s.chan with queue }, left := s.left ++ [(.received, item)], pushed := 0 })
    | none => some (.silent, { s with receiver := .emptied, pushed := 0 })
  | .emptied =>
    if s.chan.senders = 0 then some (.received (.error .channelClosed), { s with receiver := .idle })
    else some (.received (.error .empty), { s with receiver := .idle })
  | .dropped => none

/-- One atomic access, or `none` where the program cannot make it: a handle that is gone is
not used, and one that a send borrows is not dropped. -/
def step (s : System α) : Action α → Option (Event α × System α)
  | .start sender send item =>
    if sender ∈ s.alive then some (.silent,
        { s with calls := s.calls ++ [⟨sender, send, item, .load⟩] }) else none
  | .advance n => s.calls[n]?.map (s.turn n)
  | .clone sender =>
    if sender ∈ s.alive ∧ s.alive.length + s.chan.receivers ≤ maxRefcount then
      some (.silent, { s with
        chan := { s.chan with senders := fetchAdd s.chan.senders }
        alive := s.alive ++ [s.born]
        born := s.born + 1 })
    else none
  | .drop sender =>
    if sender ∈ s.alive ∧ ∀ call ∈ s.calls, call.sender ≠ sender then
      some (.droppedSender (s.chan.senders == 1), { s with
        chan := { s.chan with senders := fetchSub s.chan.senders }
        alive := s.alive.erase sender })
    else none
  | .receive => s.receive
  | .dropReceiver =>
    match s.receiver with
    | .idle => some (.silent, { s with
        chan := { s.chan with receivers := fetchSub s.chan.receivers }
        receiver := .dropped })
    | _ => none

/-- The states that interleavings of a new channel's parties reach. -/
inductive Reachable : System α → Prop
  | new {capacity s} : System.new capacity = some s → Reachable s
  | step {s s' action event} : Reachable s → s.step action = some (event, s') → Reachable s'

/-- Does the actions one by one. -/
def play (s : System α) : List (Action α) → Option (System α)
  | [] => some s
  | action :: rest => (s.step action).bind fun (_, s') => s'.play rest

/-- A new channel after the actions. -/
def run (capacity : Nat) (actions : List (Action α)) : Option (System α) :=
  (System.new capacity).bind (·.play actions)

theorem Reachable.play {s s' : System α} (reached : Reachable s) {actions : List (Action α)}
    (h : s.play actions = some s') : Reachable s' := by
  induction actions generalizing s with
  | nil => cases h; exact reached
  | cons action rest ih =>
    obtain ⟨⟨event, mid⟩, first, later⟩ := Option.bind_eq_some_iff.mp h
    exact ih (reached.step first) later

theorem Reachable.run {s : System α} {capacity : Nat} {actions : List (Action α)}
    (h : run capacity actions = some s) :
    Reachable s := by
  obtain ⟨start, made, played⟩ := Option.bind_eq_some_iff.mp h
  exact (Reachable.new made).play played

end System
end Channel
end Wavelet
