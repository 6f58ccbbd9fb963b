import NotebookTidy.Editor.Session

/-!
Events on their way to subscribers. Each subscriber reads all that is sent after it subscribed, in
order, but one that falls further behind than the capacity loses the oldest. A subscription that
is given up receives nothing more; it is counted until the next time that events are delivered. A
session listens with at most one subscription at a time.
-/
namespace NotebookTidy.Editor

inductive Phase where
  | listening
  | leaving
  | left
  deriving DecidableEq, Repr

structure Subscriber where
  phase : Phase
  next : Nat
  inbox : List Event
  deriving DecidableEq, Repr

structure Bus where
  capacity : Nat
  sent : List Event
  subscribers : List Subscriber
  deriving DecidableEq, Repr

namespace Bus

def defaultCapacity : Nat := 64

/-- Capacities are powers of two. -/
def withCapacity (capacity : Nat) : Bus := ⟨capacity.nextPowerOfTwo, [], []⟩

def subscribe (b : Bus) : Bus :=
  { b with subscribers := b.subscribers ++ [⟨.listening, b.sent.length, []⟩] }

def receivers (b : Bus) : Nat := b.subscribers.countP (·.phase ≠ .left)

def send (b : Bus) (e : Event) : Bus := { b with sent := b.sent ++ [e] }

private def abandoned (s : Subscriber) : Subscriber :=
  if s.phase = .listening then { s with phase := .leaving } else s

def abandon (b : Bus) (index : Nat) : Bus :=
  { b with subscribers := b.subscribers.modify index abandoned }

def abandonAll (b : Bus) : Bus := { b with subscribers := b.subscribers.map abandoned }

def lost (b : Bus) (s : Subscriber) : Nat := b.sent.length - s.next - b.capacity

def pending (b : Bus) (s : Subscriber) : List Event := b.sent.drop (s.next + b.lost s)

private def delivered (b : Bus) (s : Subscriber) : Subscriber :=
  match s.phase with
  | .listening => ⟨.listening, b.sent.length, s.inbox ++ b.pending s⟩
  | _ => { s with phase := .left }

private def lossNotice (b : Bus) (s : Subscriber) : Option Notice :=
  if s.phase = .listening ∧ 0 < b.lost s then some (.dropped (b.lost s)) else none

def deliver (b : Bus) : Bus × List Notice :=
  ({ b with subscribers := b.subscribers.map (delivered b) },
    b.subscribers.filterMap (lossNotice b))

def collect (b : Bus) : Bus × List (List Event) :=
  ({ b with subscribers := b.subscribers.map fun s => { s with inbox := [] } },
    b.subscribers.map Subscriber.inbox)

end Bus

/-- What a listener is sent it has served before `emit` answers. -/
structure Listener where
  session : Session
  bus : Bus
  arriving : Option Document := none

namespace Listener

/-- Formatting takes its time, in which the bus lets go of subscriptions that are given up. -/
def handle (l : Listener) (around : Surroundings) (e : Event) : Listener × List Notice :=
  let (bus, lost) := if l.session.formats e then l.bus.deliver else (l.bus, [])
  let (session, arriving, notices) := l.session.handleAmid around e l.arriving
  (⟨session, bus, arriving⟩, lost ++ notices)

def listen (l : Listener) : Listener := { l with bus := l.bus.abandonAll.subscribe }

def cancel (l : Listener) : Listener × List Notice :=
  let (bus, lost) := l.bus.abandonAll.deliver
  ({ l with bus }, lost)

private def serve (around : Surroundings) (state : Listener × List Notice) (e : Event) :
    Listener × List Notice :=
  let (l, notices) := state.1.handle around e
  (l, state.2 ++ notices)

/-- Sends an event and serves it, if the session listens. Also says how many received it. -/
def emit (l : Listener) (around : Surroundings) (e : Event) : Listener × Nat × List Notice :=
  let (bus, lost) := (l.bus.send e).deliver
  let (bus, inboxes) := bus.collect
  let (served, notices) := inboxes.flatten.foldl (serve around) ({ l with bus }, lost)
  (served, l.bus.receivers, notices)

end Listener
end NotebookTidy.Editor
