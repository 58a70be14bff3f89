import CheezyCore.Mkcp.Conn

/-!
# Two connections over an unreliable network

Two connections of one conversation exchange packets over a network that delivers any packet
either of them has sent, at any time, any number of times or never. A packet that is longer
than the buffer it is read into does not arrive; headers and authenticators of packets are left
out, as the network forges nothing.
-/

namespace Mkcp

/-- The buffer into which packets are read. -/
def readBufferSize : Nat := 64 * 1024

/-- A connection with its history. -/
structure Side where
  conn : Conn
  /-- The packets it has sent. -/
  sent : List Bytes := []
  /-- The payloads of the segments it was given to write. -/
  written : List Bytes := []
  /-- What its reader has obtained. -/
  obtained : Bytes := []

inductive Event where
  | write (b : Bytes)
  | read (size : Nat)
  | close (begin : UInt32)
  | flush (current begin : UInt32)
  /-- The `i`-th packet of the peer arrives. -/
  | receive (i : Nat) (current begin : UInt32)

def Side.step (x : Side) (incoming : List Bytes) : Event → Option Side
  | .write b => (x.conn.write b).map fun conn =>
    { x with conn, written := x.written ++ [x.conn.nextPayload b] }
  | .read size => some
      { x with conn := (x.conn.read size).2, obtained := x.obtained ++ (x.conn.read size).1 }
  | .close begin => some { x with conn := x.conn.close begin }
  | .flush current begin => some
      { x with
        conn := (x.conn.flush current begin).1
        sent := x.sent ++ (x.conn.flush current begin).2.map Segment.serialize }
  | .receive i current begin => incoming[i]?.bind fun packet =>
    if packet.length ≤ readBufferSize then
      some { x with conn := x.conn.input (readPacket packet) current begin }
    else none

structure World where
  a : Side
  b : Side

inductive Action where
  | a (event : Event)
  | b (event : Event)

def newWorld (a b : Conn) : World := ⟨{ conn := a }, { conn := b }⟩

def World.next (w : World) : Action → Option World
  | .a event => (w.a.step w.b.sent event).map fun a => { w with a }
  | .b event => (w.b.step w.a.sent event).map fun b => { w with b }

end Mkcp
