import DistStudy.Raft.Server
import DistStudy.Lib.Behavior

/-!
# A cluster of Raft peers

`n` peers, the RPCs between them and the service on top of each. The state of
a peer outside its memory is its persister, which survives a crash, the
goroutines of `Snapshot` calls that wait for the main loop, and what was sent
on `applyCh`.

* **Network** (`labrpc`): a packet is a request or a response. Delivery takes
  it off the network, so each is delivered at most once; any packet can be
  delivered at any time, dropped, or failed. A failed call hands its caller
  the untouched reply; a caller may also stop waiting for a request that is
  still on its way.
* **Crashes**: a peer may crash between two events and also after any prefix
  of the effects of a handler; a handler that panics can only crash. `Make` on
  the persister starts the next incarnation, which never sees a response to
  a call of an earlier one.
* **Service**: it may call `Snapshot` at any time, with any index. That it has got
  the index is one of the `Rules` of a run.
-/

namespace DistStudy.Raft

variable {n : ℕ} {α : Type}

/-- What one incarnation sent on `applyCh`, and the snapshot index it was
started with. -/
structure Stream (α : Type) where
  start : Int
  msgs : List (ApplyMsg α)
deriving DecidableEq, Repr

structure Server (n : ℕ) (α : Type) where
  rf : Raft n α
  persister : Persister α
  incarnation : ℕ
  /-- The `Snapshot` calls whose goroutine waits for the main loop. -/
  snapshotRequestCh : List SnapshotRequest
  applied : Stream α
  /-- The streams of the earlier incarnations. -/
  past : List (Stream α)
deriving DecidableEq, Repr

/-- Where the reply of an RPC goes: the client, its incarnation and its call. -/
structure Caller (n : ℕ) (α : Type) where
  client : Fin n
  incarnation : ℕ
  call : Call α
deriving DecidableEq, Repr

inductive Packet (n : ℕ) (α : Type) where
  /-- A request; `waiting` while its caller still waits for the reply. -/
  | request (caller : Caller n α) (server : Fin n) (waiting : Bool)
  | response (caller : Caller n α) (server : Fin n) (reply : Reply)
deriving DecidableEq, Repr

namespace Packet

def caller : Packet n α → Caller n α
  | .request caller _ _ => caller
  | .response caller _ _ => caller

/-- The peer that is called. -/
def server : Packet n α → Fin n
  | .request _ server _ => server
  | .response _ server _ => server

/-- The reply of a response. -/
def answer : Packet n α → Option Reply
  | .request _ _ _ => none
  | .response _ _ reply => some reply

end Packet

structure World (n : ℕ) (α : Type) where
  servers : Vector (Server n α) n
  net : List (Packet n α)
  /-- All `Snapshot` calls so far: the index and the bytes the service made. -/
  taken : List (Int × GoBytes)
deriving DecidableEq, Repr

namespace World

def server (w : World n α) (i : Fin n) : Server n α := getElem w.servers i i.isLt

def setServer (w : World n α) (i : Fin n) (s : Server n α) : World n α :=
  { w with servers := w.servers.set i s i.isLt }

@[simp] theorem server_setServer_self (w : World n α) (i : Fin n) (s : Server n α) :
    (w.setServer i s).server i = s := by
  simp [server, setServer]

theorem server_setServer_ne (w : World n α) {i j : Fin n} (s : Server n α) (h : j ≠ i) :
    (w.setServer i s).server j = w.server j := by
  have hij : (i : ℕ) ≠ j := fun hij => h (Fin.ext hij.symm)
  simp [server, setServer, hij]

@[simp] theorem net_setServer (w : World n α) (i : Fin n) (s : Server n α) :
    (w.setServer i s).net = w.net := rfl

@[simp] theorem taken_setServer (w : World n α) (i : Fin n) (s : Server n α) :
    (w.setServer i s).taken = w.taken := rfl

end World

/-! ## Performing the effects of a handler -/

/-- The writes to the persister. -/
def savesOf (effects : List (Effect n α)) : List (Persister α) :=
  effects.filterMap fun
    | .save persister => some persister
    | _ => none

/-- The sends on `applyCh`. -/
def appliesOf (effects : List (Effect n α)) : List (ApplyMsg α) :=
  effects.filterMap fun
    | .apply msg => some msg
    | _ => none

/-- The packet of an effect of peer `me`, which handles the RPC of `caller`. -/
def packetOf (me : Fin n) (incarnation : ℕ) (caller : Option (Caller n α)) :
    Effect n α → Option (Packet n α)
  | .call server call => some (.request ⟨me, incarnation, call⟩ server true)
  | .reply reply => caller.map fun caller => .response caller me reply
  | _ => none

/-- The peer after some effects of a handler that has left the memory `rf`. -/
def Server.perform (s : Server n α) (effects : List (Effect n α)) (rf : Raft n α) :
    Server n α :=
  { s with
    rf := rf
    persister := (savesOf effects).getLast?.getD s.persister
    applied := { s.applied with msgs := s.applied.msgs ++ appliesOf effects } }

/-- The next incarnation of a peer that has crashed. -/
def Server.restart (s : Server n α) : Server n α :=
  let rf : Raft n α := make s.persister
  { rf
    persister := s.persister
    incarnation := s.incarnation + 1
    snapshotRequestCh := []
    applied := { start := rf.snapshotIndex, msgs := [] }
    past := s.applied :: s.past }

def World.perform (w : World n α) (me : Fin n) (caller : Option (Caller n α))
    (effects : List (Effect n α)) (rf : Raft n α) : World n α :=
  { w.setServer me ((w.server me).perform effects rf) with
    net := w.net ++ effects.filterMap (packetOf me (w.server me).incarnation caller) }

def World.restart (w : World n α) (i : Fin n) : World n α :=
  w.setServer i (w.server i).restart

/-! ## Events -/

inductive Timer where
  | election
  | apply
  | heartbeat
  | broadcastEntries
deriving DecidableEq, Repr

def Timer.input : Timer → Input n α
  | .election => .electionTimer
  | .apply => .applyTimer
  | .heartbeat => .heartbeatTimer
  | .broadcastEntries => .broadcastEntriesTimer

/-- What makes the main loop of a peer run a handler. -/
inductive Cause (n : ℕ) (α : Type) where
  | timer (server : Fin n) (timer : Timer)
  | start (server : Fin n) (command : α)
  /-- The main loop takes the `k`-th waiting `Snapshot` request. -/
  | snapshotRequest (server : Fin n) (k : ℕ)
  /-- The network delivers its `k`-th packet. -/
  | deliver (k : ℕ)
deriving DecidableEq, Repr

inductive Event (n : ℕ) (α : Type) where
  | handle (cause : Cause n α)
  /-- The peer crashes after `k` effects of the handler and is started again. -/
  | crashDuring (cause : Cause n α) (k : ℕ)
  | crash (server : Fin n)
  /-- The service of the peer calls `Snapshot`. -/
  | snapshot (server : Fin n) (index : Int) (data : GoBytes)
  | drop (k : ℕ)
  | fail (k : ℕ)
deriving DecidableEq, Repr

/-- The peers of a cluster of three are written as numerals. The zero is the one that the
numerals of `Fin` ask for. -/
instance neZero_three : @NeZero ℕ Zero.ofOfNat0 3 := ⟨by decide⟩

/-- The input that a request is to the peer it reaches. -/
def Call.input : Call α → Input n α
  | .requestVote _ args => .requestVote args
  | .appendEntries args => .appendEntries args
  | .installSnapshot args => .installSnapshot { args with data := labgobBytes args.data }

/-- The input that a reply of `server` is to the peer that made the call. -/
def Call.handBack (server : Fin n) : Call α → Reply → Option (Input n α)
  | .requestVote voteCh _, .requestVote reply => some (.vote voteCh reply)
  | .appendEntries args, .appendEntries reply => some (.appendEntriesReply reply args server)
  | .installSnapshot _, .installSnapshot reply => some (.installSnapshotReply reply server)
  | _, _ => none

/-- An input on its way into the main loop of `server`, and the world from
which it has been taken. -/
structure Arrival (n : ℕ) (α : Type) where
  server : Fin n
  input : Input n α
  caller : Option (Caller n α)
  world : World n α

namespace World

def arrival (w : World n α) : Cause n α → Option (Arrival n α)
  | .timer i t => some ⟨i, t.input, none, w⟩
  | .start i command => some ⟨i, .command command, none, w⟩
  | .snapshotRequest i k =>
    (w.server i).snapshotRequestCh[k]?.map fun req =>
      ⟨i, .snapshotRequest req, none,
        w.setServer i { w.server i with
          snapshotRequestCh := (w.server i).snapshotRequestCh.eraseIdx k }⟩
  | .deliver k =>
    match w.net[k]? with
    | none => none
    | some (.request caller i waiting) =>
      some ⟨i, caller.call.input, if waiting then some caller else none,
        { w with net := w.net.eraseIdx k }⟩
    | some (.response caller i reply) =>
      if caller.incarnation = (w.server caller.client).incarnation then
        (caller.call.handBack i reply).map fun input =>
          ⟨caller.client, input, none, { w with net := w.net.eraseIdx k }⟩
      else none

/-- A call fails: its caller is handed the untouched reply. The request may
still reach the peer. -/
def failed (w : World n α) (k : ℕ) : Option (World n α) :=
  match w.net[k]? with
  | some (.request caller i true) =>
    some { w with net := w.net.set k (.request caller i false) ++
                           [.response caller i caller.call.zeroReply] }
  | some (.response caller i _) =>
    some { w with net := w.net.set k (.response caller i caller.call.zeroReply) }
  | _ => none

/-- The service of peer `i` calls `Snapshot`. -/
def snapshot (w : World n α) (i : Fin n) (index : Int) (data : GoBytes) : World n α :=
  { w.setServer i { w.server i with
      snapshotRequestCh := (w.server i).snapshotRequestCh ++ [⟨index, data⟩] } with
    taken := w.taken ++ [(index, data)] }

def step (w : World n α) : Event n α → Option (World n α)
  | .handle cause => do
    let a ← w.arrival cause
    let rf := (a.world.server a.server).rf
    let handler ← serve a.server rf a.input
    let (_, rf') ← (handler rf).2
    some (a.world.perform a.server a.caller (handler rf).1 rf')
  | .crashDuring cause k => do
    let a ← w.arrival cause
    let rf := (a.world.server a.server).rf
    let handler ← serve a.server rf a.input
    some ((a.world.perform a.server a.caller ((handler rf).1.take k) rf).restart a.server)
  | .crash i => some (w.restart i)
  | .snapshot i index data => some (w.snapshot i index data)
  | .drop k => if k < w.net.length then some { w with net := w.net.eraseIdx k } else none
  | .fail k => w.failed k

/-- All peers have just been made on empty persisters. -/
def init : World n α where
  servers := Vector.replicate n
    { rf := make {}, persister := {}, incarnation := 0, snapshotRequestCh := [],
      applied := { start := 0, msgs := [] }, past := [] }
  net := []
  taken := []

end World

/-- A run of the cluster in which every event meets `C`. -/
abbrev Run (C : World n α → Event n α → Prop) (e : Behavior (World n α)) : Prop :=
  Runs World.init World.step C e

end DistStudy.Raft
