import PeerChat.Hooks.Printing
import PeerChat.Interleaving.Demux
import PeerChat.Peers.Hints
import PeerChat.Wire.Framing
import Mathlib.Algebra.Order.Ring.Rat

/-! The connection loop of a listener: connections are accepted, read and closed by one loop, and what
their lines carry is handed to the store. -/
namespace PeerChat.Serve
open Python Relational Wire Interleaving

/-- `time.monotonic()` -/
abbrev Monotonic := ℚ

def CONNECTION_TTL : Monotonic := 5

/-- An entry of `clients`. -/
structure Client where
  buffer : Bytes := []
  deadline : Monotonic
  peer : Str
  endpoint : Endpoint

/-- The end of `client.recv(16384)`; no bytes at the end of the stream. -/
inductive Received
  | raised
  | data (bytes : Bytes)

/-- What a client is met with: its socket is ready, or the clock is read for its deadline. -/
inductive Stimulus
  | received (r : Received)
  | clock (now : Monotonic)

/-- What comes of it: a call of `store.accept` that gets through, or one more in `rejected`. -/
inductive Served
  | stored (peer : Str) (f : Frame)
  | rejected
  deriving DecidableEq

/-- The frames among what has come of a client. -/
def stored (os : List Served) : List (Str × Frame) := os.filterMap fun
  | .stored peer f => some (peer,f)
  | .rejected => none

/-- `store.accept` can bind all texts of a frame; otherwise it raises a UnicodeEncodeError. -/
def storable (peer : Str) (f : Frame) : Bool := (boundTexts peer f).all fun s => (Utf8.encode s).isSome

/-- The sender that the lines of a connection have to name. -/
def Client.address (c : Client) : Str := str "uds:" ++ c.endpoint.socket

/-- The loop over the lines of one read, and whether it gets to its end. -/
def handleLines (U : Interp) (c : Client) : List Bytes → List Served × Bool
  | [] => ([],true)
  | line::lines =>
    match decodeFrame U line c.address with
    | none => (.rejected :: (handleLines U c lines).1,(handleLines U c lines).2)
    | some f =>
      if storable c.peer f then
        (.stored c.peer f :: (handleLines U c lines).1,(handleLines U c lines).2)
      else ([.rejected],false)

/-- One client of the loop. -/
def client (U : Interp) : Automaton Client Stimulus Served
  | _, .received .raised => ([.rejected],none)
  | _, .received (.data []) => ([],none)
  | c, .received (.data (b::bytes)) =>
    match feed c.buffer (b::bytes) with
    | none => ([.rejected],none)
    | some (lines,rest) =>
      ((handleLines U c lines).1,
        if (handleLines U c lines).2 then some { c with buffer := rest } else none)
  | c, .clock now => ([],if c.deadline ≤ now then none else some c)

inductive Happening
  /-- The listening socket is ready. -/
  | connect (c : Connection) (now : Monotonic)
  /-- The socket of a client is ready. -/
  | readable (n : ℕ) (r : Received)
  /-- The end of a pass, with the clock as it is read for each client. -/
  | sweep (clock : ℕ → Monotonic)

structure Listening where
  hints : Hints := {}
  /-- Connections that have been closed at once. -/
  refused : ℕ := 0
  clients : Demux Client Served := {}

namespace Listening
variable (U : Interp) (s : Listening)

/-- The accept step, with as many clients as there are. -/
def accept (c : Connection) : Hints × Option (Str × Endpoint) :=
  s.hints.accept { c with clients := s.clients.live.length }

/-- The client that an accept step adds. -/
def added (c : Connection) (now : Monotonic) : Option Client :=
  (s.accept c).2.map fun p =>
    { deadline := now+CONNECTION_TTL, peer := p.1, endpoint := p.2 }

/-- What an event is to the clients. -/
def signal : Happening → Signal Client Stimulus
  | .connect c now => .opened (s.added c now)
  | .readable n r => .deliver fun m => if m = n then some (.received r) else none
  | .sweep clock => .deliver fun m => some (.clock (clock m))

def next (e : Happening) : Listening where
  hints := match e with
    | .connect c _ => (s.accept c).1
    | _ => s.hints
  refused := match e with
    | .connect c _ => if (s.accept c).2.isNone then s.refused+1 else s.refused
    | _ => s.refused
  clients := s.clients.next (client U) (s.signal e)

/-- The value of `rejected`. -/
def rejected : ℕ := s.refused + s.clients.out.countP fun p => p.2 = .rejected

/-- What a connection has had stored, under which peer. -/
def storedBy (n : ℕ) : List (Str × Frame) := stored (s.clients.outOf n)

end Listening

/-- `serve` for a history of events. -/
def listen (U : Interp) (s : Listening) (es : List Happening) : Listening :=
  es.foldl (Listening.next U) s

/-- The events that concern one connection. -/
def Happening.own (n : ℕ) : Happening → Option Stimulus
  | .connect _ _ => none
  | .readable m r => if n = m then some (.received r) else none
  | .sweep clock => some (.clock (clock n))

/-- The bytes that a stimulus brings. -/
def Stimulus.chunk : Stimulus → Option Bytes
  | .received (.data bytes) => some bytes
  | _ => none

end PeerChat.Serve
