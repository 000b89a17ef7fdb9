import PeerChat.Programs.Commands

/-! One bridge as a pool of processes: any number of hooks, commands, recoveries and accepted
frames, and at most one listener, which holds the lock of its state directory. -/
namespace PeerChat
open Python Wire Interleaving

inductive Process
  | accept (peer : Str) (frame : Frame)
  | read (ack : Bool)
  | readFrom (peer : Str) (ack : Bool)
  | readById (selected : Option Str) (mid : Str) (ack : Bool)
  | deliver (payload : HookPayload)
  | serve (pid : Pid) (passes : List Bool)
  | start (args : StartArgs)
  | restore (row : Option Registration) (args : StartArgs)
  | stop
  | enableSupervision
  | send (args : SendArgs)
  | configure (mode : Delivery) (budget : Option Budget)
  | connectSeed (phase : Phase)
  | connectOwn (key : Str)

/-- The program of a process. -/
def Process.code (U : Interp) : Process → Code Unit
  | .accept peer frame => PeerChat.accept peer frame >>= fun _ => .ret ()
  | .read ack => readInbox ack >>= fun _ => .ret ()
  | .readFrom peer ack => PeerChat.readFrom peer ack >>= fun _ => .ret ()
  | .readById selected mid ack => PeerChat.readById selected mid ack >>= fun _ => .ret ()
  | .deliver payload => PeerChat.deliver payload >>= fun _ => .ret ()
  | .serve pid passes => PeerChat.serve U pid passes
  | .start args => startBridge args >>= fun _ => .ret ()
  | .restore row args => PeerChat.restore row args >>= fun _ => .ret ()
  | .stop => PeerChat.stop
  | .enableSupervision => PeerChat.enableSupervision
  | .send args => PeerChat.send U args >>= fun _ => .ret ()
  | .configure mode budget => PeerChat.configure mode budget >>= fun _ => .ret ()
  | .connectSeed phase => PeerChat.connectSeed phase
  | .connectOwn key => PeerChat.connectOwn key

/-- Only a listener takes the lock. -/
def Process.exclusive : Process → Bool
  | .serve .. => true
  | _ => false

/-- A receipt for a frame that was never written. -/
def Process.unfounded (w : World) : Process → Bool
  | .accept _ (.receipt mid _) => ¬ w.wire.any (·.1 == mid)
  | _ => false

def Op.isOutside : Op → Bool
  | .outside _ => true
  | _ => false

/-- Only the world outside changes the machine. -/
theorem apply_machine {l : Op} (h : l.isOutside = false) (w : World) :
    (apply l w).machine = w.machine := by
  cases l with
  | sending op => cases op <;> rfl
  | outside m => cases h
  | _ => rfl

/-- The bridge. Where its peers are honest, they answer only frames that were written. -/
def bridge (U : Interp) (honest : Bool) : System Process World Op where
  code := Process.code U
  exclusive := Process.exclusive
  allowed p w := ¬ (honest && p.unfounded w)
  outside := Op.isOutside

/-- A schedule of the bridge's processes. -/
abbrev Schedule := List (Event Process Op)

/-- A new database on a machine. -/
def World.new (m : Machine) : World := ⟨.empty,[],m⟩

end PeerChat
