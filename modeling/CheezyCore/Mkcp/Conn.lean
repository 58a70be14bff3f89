import CheezyCore.Mkcp.Segment

/-!
# One side of an mKCP conversation

A `Conn` numbers the segments it is given to write, keeps them in its send window and sends
them again until the peer has acknowledged them, one by one or up to a number. It keeps
segments of the peer that arrive early, and appends them to its read buffer in order.

Every function runs under the lock of the connection. A clock reading is the number of
milliseconds since the connection was made, as 32 bits; `current` is the reading a call starts
with and `begin` the one at a change of state. Wake-up channels and deadlines are left out.
-/

namespace Mkcp

/-- Zero stands for the default of a field. -/
structure Config where
  mtuField : UInt32 := 0
  ttiField : UInt32 := 0
  uplinkCapacityField : UInt32 := 0
  downlinkCapacityField : UInt32 := 0
  congestion : Bool := false
  writeBufferField : UInt32 := 0
  deriving DecidableEq, Repr

namespace Config

def orDefault (value default : UInt32) : UInt32 := if value = 0 then default else value

def mtu (c : Config) : UInt32 := orDefault c.mtuField 1350
def tti (c : Config) : UInt32 := orDefault c.ttiField 50
def uplinkCapacity (c : Config) : UInt32 := orDefault c.uplinkCapacityField 5
def downlinkCapacity (c : Config) : UInt32 := orDefault c.downlinkCapacityField 20
def writeBuffer (c : Config) : UInt32 := orDefault c.writeBufferField (2 * 1024 * 1024)

/-- The packets of a capacity in one interval. `newConn` panics if the interval is longer than
a second. -/
def inFlightSize (c : Config) (capacity : UInt32) : UInt32 :=
  let size := capacity * 1024 * 1024 / c.mtu / (1000 / c.tti)
  if size < 8 then 8 else size

def sendingInFlightSize (c : Config) : UInt32 := c.inFlightSize c.uplinkCapacity
def receivingInFlightSize (c : Config) : UInt32 := c.inFlightSize c.downlinkCapacity
def sendingBufferSize (c : Config) : UInt32 := c.writeBuffer / c.mtu

end Config

inductive ConnState where
  | active
  | readyToClose
  | peerClosed
  | terminating
  | peerTerminating
  | terminated
  deriving DecidableEq, Repr

/-- Every other state drops the send window when it is entered. -/
def ConnState.keepsWindow : ConnState → Bool
  | active | readyToClose => true
  | _ => false

structure AckItem where
  number : UInt32
  timestamp : UInt32
  nextFlush : UInt32 := 0
  deriving DecidableEq, Repr

structure Conn where
  cfg : Config
  conv : UInt16
  mss : Nat
  rto : UInt32 := 100
  rttVariation : UInt32 := 0
  srtt : UInt32 := 0
  minRtt : UInt32
  rtoUpdated : UInt32 := 0
  state : ConnState := .active
  stateBegin : UInt32 := 0
  lastIncoming : UInt32 := 0
  lastPing : UInt32 := 0
  readBuf : Bytes := []
  /-- The map from numbers to segments; a number has at most one. -/
  recvCache : List DataSegment := []
  recvNext : UInt32 := 0
  ackList : List AckItem := []
  ackDirty : Bool := false
  sendWindow : List DataSegment := []
  sendNext : UInt32 := 0
  firstUnacked : UInt32 := 0
  remoteRecvWin : UInt32 := 32
  totalInFlightSize : UInt32 := 0
  controlWindow : UInt32
  firstUnackedWasUpdated : Bool := false
  deriving DecidableEq, Repr

/-- `overhead` is what the header and the authenticator of a packet take. -/
def newConn (cfg : Config) (conv : UInt16) (overhead : Int) : Conn where
  cfg
  conv
  mss := max 576 (cfg.mtu.toNat - overhead - dataSegmentOverhead).toNat
  minRtt := cfg.tti
  controlWindow := cfg.sendingInFlightSize

namespace Conn

/-! ## State -/

def setState (c : Conn) (state : ConnState) (begin : UInt32) : Conn :=
  if c.state = state then c
  else { c with
    state
    stateBegin := begin
    sendWindow := if state.keepsWindow then c.sendWindow else [] }

def setStateIf (c : Conn) (p : Prop) [Decidable p] (state : ConnState) (begin : UInt32) : Conn :=
  if p then c.setState state begin else c

def handleOption (c : Conn) (opt : UInt8) (begin : UInt32) : Conn :=
  if opt &&& segmentOptionClose = segmentOptionClose then
    match c.state with
    | .readyToClose => c.setState .terminating begin
    | .active => c.setState .peerClosed begin
    | _ => c
  else c

/-- `commandTerminate`. -/
def handleTerminate (c : Conn) (begin : UInt32) : Conn :=
  match c.state with
  | .active | .peerClosed => c.setState .peerTerminating begin
  | .readyToClose => c.setState .terminating begin
  | .terminating => c.setState .terminated begin
  | _ => c

def close (c : Conn) (begin : UInt32) : Conn :=
  match c.state with
  | .active => c.setState .readyToClose begin
  | .peerClosed => c.setState .terminating begin
  | .peerTerminating => c.setState .terminated begin
  | _ => c

/-! ## Reading and writing -/

/-- A `Read` that finds bytes. -/
def read (c : Conn) (size : Nat) : Bytes × Conn :=
  (c.readBuf.take size, { c with readBuf := c.readBuf.drop size })

/-- The next payload of a `Write` with the bytes `b` left. -/
def nextPayload (c : Conn) (b : Bytes) : Bytes := b.take c.mss

/-- One round of the loop of `Write`, which fails unless the state is active, and waits while
the send window is full. -/
def write (c : Conn) (b : Bytes) : Option Conn :=
  if b ≠ [] ∧ c.state = .active ∧ UInt32.ofNat c.sendWindow.length ≤ c.cfg.sendingBufferSize then
    some { c with
      sendNext := c.sendNext + 1
      sendWindow := c.sendWindow ++ [{ number := c.sendNext, payload := c.nextPayload b }] }
  else none

/-! ## Input -/

/-- The loop of `deliverLocked`; every round takes a segment from the cache. -/
def deliverLoop : Nat → Conn → Conn
  | 0, c => c
  | fuel + 1, c =>
    match c.recvCache.find? (·.number == c.recvNext) with
    | none => c
    | some seg => deliverLoop fuel { c with
        recvCache := c.recvCache.filter (·.number != c.recvNext)
        recvNext := c.recvNext + 1
        readBuf := c.readBuf ++ seg.payload }

def deliver (c : Conn) : Conn := deliverLoop c.recvCache.length c

def processSendingNext (c : Conn) (next : UInt32) : Conn :=
  let acks := c.ackList.filter fun ack => next ≤ ack.number
  { c with ackList := acks, ackDirty := c.ackDirty || acks.length != c.ackList.length }

def findFirstUnacked (c : Conn) : Conn :=
  let first := match c.sendWindow with
    | [] => c.sendNext
    | seg :: _ => seg.number
  { c with
    firstUnacked := first
    firstUnackedWasUpdated := c.firstUnackedWasUpdated || c.firstUnacked != first }

def processReceivingNext (c : Conn) (next : UInt32) : Conn :=
  { c with sendWindow := c.sendWindow.filter fun seg => next ≤ seg.number }.findFirstUnacked

/-- Whether the segment was removed comes with the connection. -/
def processAck (c : Conn) (number : UInt32) : Bool × Conn :=
  if number - c.firstUnacked > 0x7fffffff ∨ number - c.sendNext < 0x7fffffff then (false, c)
  else if c.sendWindow.any (·.number == number) then
    (true, { c with
      totalInFlightSize := if c.totalInFlightSize > 0 then c.totalInFlightSize - 1 else 0
      sendWindow := c.sendWindow.eraseP (·.number == number) }.findFirstUnacked)
  else (false, c)

/-- The segments before an acknowledged one are due earlier. -/
def fastAckLoop (number reduction : UInt32) : List DataSegment → List DataSegment
  | [] => []
  | seg :: rest =>
    if number = seg.number ∨ number - seg.number > 0x7fffffff then seg :: rest
    else
      (if seg.transmit > 0 ∧ seg.timeout > reduction then
        { seg with timeout := seg.timeout - reduction } else seg) ::
        fastAckLoop number reduction rest

def handleFastAck (c : Conn) (number : UInt32) : Conn :=
  let reduction := c.rto / 3
  if reduction = 0 then c
  else { c with sendWindow := fastAckLoop number reduction c.sendWindow }

/-- The smoothed round-trip time and its variation after a measurement. -/
def smooth (c : Conn) (rtt : UInt32) : Conn :=
  if c.srtt = 0 then { c with srtt := rtt, rttVariation := rtt / 2 }
  else
    let delta := if c.srtt > rtt then c.srtt - rtt else rtt - c.srtt
    let srtt := (7 * c.srtt + rtt) / 8
    { c with
      rttVariation := (3 * c.rttVariation + delta) / 4
      srtt := if srtt < c.minRtt then c.minRtt else srtt }

def updateRTT (c : Conn) (rtt current : UInt32) : Conn :=
  if rtt > 0x7fffffff then c
  else
    let c := c.smooth rtt
    let rto := if c.minRtt < 4 * c.rttVariation then c.srtt + 4 * c.rttVariation
      else c.srtt + c.rttVariation
    { c with rto := (if rto > 10000 then 10000 else rto) * 5 / 4, rtoUpdated := current }

def updatePeerRTO (c : Conn) (rto current : UInt32) : Conn :=
  if rto = 0 ∨ current - c.rtoUpdated < 3000 then c
  else { c with rtoUpdated := current, rto }

/-- A data segment within the receiving window is acknowledged and, if it is new, kept. -/
def keepData (c : Conn) (s : DataSegment) : Conn :=
  if s.number - c.recvNext < c.cfg.receivingInFlightSize then
    { c with
      ackList := c.ackList ++ [{ number := s.number, timestamp := s.timestamp }]
      ackDirty := true
      recvCache := if c.recvCache.any (·.number == s.number) then c.recvCache
        else c.recvCache ++ [s] }
  else c

def inputData (c : Conn) (s : DataSegment) (begin : UInt32) : Conn :=
  ((((c.handleOption s.option begin).processSendingNext s.sendingNext).keepData s).deliver)

/-- The loop over the numbers of an acknowledgement: the largest one, and whether its segment
was removed. -/
def ackLoop : List UInt32 → Conn → UInt32 → Bool → Conn × UInt32 × Bool
  | [], c, maxack, maxackRemoved => (c, maxack, maxackRemoved)
  | number :: rest, c, maxack, maxackRemoved =>
    let result := c.processAck number
    if maxack < number then ackLoop rest result.2 number result.1
    else ackLoop rest result.2 maxack maxackRemoved

/-- What follows the loop. -/
def finishAck (timestamp current : UInt32) (result : Conn × UInt32 × Bool) : Conn :=
  if result.2.2 then
    let c := result.1.handleFastAck result.2.1
    if current - timestamp < 10000 then c.updateRTT (current - timestamp) current else c
  else result.1

def growRemoteWindow (c : Conn) (receivingWindow : UInt32) : Conn :=
  if receivingWindow > c.remoteRecvWin then { c with remoteRecvWin := receivingWindow } else c

def inputAck (c : Conn) (s : AckSegment) (current begin : UInt32) : Conn :=
  let c := ((c.handleOption s.option begin).growRemoteWindow s.receivingWindow).processReceivingNext
    s.receivingNext
  if s.numberList = [] then c else finishAck s.timestamp current (ackLoop s.numberList c 0 false)

def inputCmdOnly (c : Conn) (s : CmdOnlySegment) (current begin : UInt32) : Conn :=
  let c := c.handleOption s.option begin
  let c := if s.cmd = commandTerminate then c.handleTerminate begin else c
  ((c.processReceivingNext s.receivingNext).processSendingNext s.sendingNext).updatePeerRTO
    s.peerRTO current

def inputSegment (c : Conn) (current begin : UInt32) : Segment → Conn
  | .data s => c.inputData s begin
  | .ack s => c.inputAck s current begin
  | .cmdOnly s => c.inputCmdOnly s current begin

/-- A segment of another conversation ends the loop. -/
def inputLoop (current begin : UInt32) : List Segment → Conn → Conn
  | [], c => c
  | seg :: rest, c =>
    if seg.conversation ≠ c.conv then c
    else inputLoop current begin rest (c.inputSegment current begin seg)

def input (c : Conn) (segments : List Segment) (current begin : UInt32) : Conn :=
  if segments = [] ∨ c.state = .terminated then c
  else inputLoop current begin segments { c with lastIncoming := current }

/-! ## Flush -/

/-- The option of a segment that is sent now. -/
def closeOption (c : Conn) : UInt8 := if c.state = .readyToClose then segmentOptionClose else 0

def newAckSegment (c : Conn) : AckSegment where
  conv := c.conv
  option := c.closeOption
  receivingWindow := c.recvNext + c.cfg.receivingInFlightSize
  receivingNext := c.recvNext

def pingSegment (c : Conn) (cmd : UInt8) : CmdOnlySegment where
  conv := c.conv
  cmd
  option := c.closeOption
  sendingNext := c.firstUnacked
  receivingNext := c.recvNext
  peerRTO := c.rto

/-- What the loop of `flushAcksLocked` has collected. -/
structure AckFlush where
  ack : AckSegment
  segments : List AckSegment := []
  candidates : List UInt32 := []
  dirty : Bool

/-- A number that was sent recently is only a candidate. -/
def flushAckItem (c : Conn) (current : UInt32) (st : AckFlush) (item : AckItem) :
    AckFlush × AckItem :=
  if item.nextFlush > current then
    (if st.candidates.length < 128 then
      { st with candidates := st.candidates ++ [item.number] } else st, item)
  else
    let ack := { st.ack with
      numberList := st.ack.numberList ++ [item.number]
      timestamp := if item.timestamp - st.ack.timestamp < 0x7fffffff then item.timestamp
        else st.ack.timestamp }
    let timeout := if c.rto / 2 < 20 then 20 else c.rto / 2
    let item := { item with nextFlush := current + timeout }
    if ack.numberList.length = 128 then
      ({ st with ack := c.newAckSegment, segments := st.segments ++ [ack], dirty := false }, item)
    else ({ st with ack }, item)

def flushAckItems (c : Conn) (current : UInt32) : List AckItem → AckFlush → AckFlush × List AckItem
  | [], st => (st, [])
  | item :: rest, st =>
    let first := c.flushAckItem current st item
    let others := flushAckItems c current rest first.1
    (others.1, first.2 :: others.2)

/-- The last acknowledgement is filled up with candidates. -/
def lastAck (st : AckFlush) : List AckSegment :=
  if st.dirty ∨ st.ack.numberList ≠ [] then
    [{ st.ack with numberList := st.ack.numberList ++
      st.candidates.take (128 - st.ack.numberList.length) }]
  else []

def flushAcks (c : Conn) (current : UInt32) : Conn × List AckSegment :=
  if c.ackList = [] then (c, [])
  else
    let result := c.flushAckItems current c.ackList { ack := c.newAckSegment, dirty := c.ackDirty }
    -- a last acknowledgement clears the mark, and without one it is clear
    ({ c with ackList := result.2, ackDirty := false }, result.1.segments ++ lastAck result.1)

def onPacketLoss (c : Conn) (lossRate : UInt32) : Conn :=
  if c.rto = 0 then c
  else
    let window := if lossRate ≥ 15 then 3 * c.controlWindow / 4
      else if lossRate ≤ 5 then c.controlWindow + c.controlWindow / 4
      else c.controlWindow
    let window := if window < 16 then 16 else window
    let max := 2 * c.cfg.sendingInFlightSize
    { c with controlWindow := if window > max then max else window }

/-- The number of segments a flush may send. -/
def sendLimit (c : Conn) : UInt32 :=
  let cwnd := min c.cfg.sendingInFlightSize (c.remoteRecvWin - c.firstUnacked)
  (if c.cfg.congestion ∧ cwnd > c.controlWindow then c.controlWindow else cwnd) * 20

/-- A segment as it is sent now. -/
def stamp (c : Conn) (current : UInt32) (seg : DataSegment) : DataSegment :=
  { seg with
    conv := c.conv
    timestamp := current
    sendingNext := c.firstUnacked
    option := c.closeOption
    transmit := seg.transmit + 1
    timeout := current + max c.rto c.cfg.tti }

/-- The counters of the loop of `flushSendLocked`. -/
structure SendCount where
  total : UInt32
  lost : UInt32 := 0
  inFlight : UInt32 := 0

/-- The send window afterwards, the segments sent, and the counters. -/
def flushSendLoop (c : Conn) (current cwnd : UInt32) :
    List DataSegment → SendCount → List DataSegment × List DataSegment × SendCount
  | [], count => ([], [], count)
  | seg :: rest, count =>
    if current - seg.timeout ≥ 0x7fffffff then
      let others := flushSendLoop c current cwnd rest count
      (seg :: others.1, others.2.1, others.2.2)
    else
      let sent := c.stamp current seg
      let count := if seg.transmit = 0 then
          { count with total := count.total + 1, inFlight := count.inFlight + 1 }
        else { count with lost := count.lost + 1, inFlight := count.inFlight + 1 }
      if count.inFlight ≥ cwnd then (sent :: rest, [sent], count)
      else
        let others := flushSendLoop c current cwnd rest count
        (sent :: others.1, sent :: others.2.1, others.2.2)

/-- `c.cfg.Congestion` adapts the window to the rate of repeated segments. -/
def adapt (c : Conn) (count : SendCount) : Conn :=
  if c.cfg.congestion ∧ count.inFlight > 0 ∧ c.totalInFlightSize ≠ 0 then
    c.onPacketLoss (count.lost * 100 / c.totalInFlightSize)
  else c

def flushSend (c : Conn) (current : UInt32) : Conn × List Segment :=
  if c.sendWindow = [] then
    if c.firstUnackedWasUpdated then
      ({ c with firstUnackedWasUpdated := false, lastPing := current },
        [.cmdOnly (c.pingSegment commandPing)])
    else (c, [])
  else
    let result := c.flushSendLoop current c.sendLimit c.sendWindow { total := c.totalInFlightSize }
    ({ { c with sendWindow := result.1, totalInFlightSize := result.2.2.total }.adapt result.2.2
      with firstUnackedWasUpdated := false }, result.2.1.map .data)

/-- The changes of state at the beginning of a flush. -/
def flushState (c : Conn) (current begin : UInt32) : Conn :=
  let c := c.setStateIf (c.state = .active ∧ current - c.lastIncoming ≥ 30000) .readyToClose begin
  c.setStateIf (c.state = .readyToClose ∧ c.sendWindow = []) .terminating begin

/-- A terminating connection only says so. -/
def flushTerminating (c : Conn) (current begin : UInt32) : Conn × List Segment :=
  ({ c with lastPing := current }.setStateIf (current - c.stateBegin > 8000) .terminated begin,
    [.cmdOnly (c.pingSegment commandTerminate)])

/-- The changes of state after a long wait. -/
def flushTimeouts (c : Conn) (current begin : UInt32) : Conn :=
  let c := c.setStateIf (c.state = .peerTerminating ∧ current - c.stateBegin > 4000)
    .terminating begin
  c.setStateIf (c.state = .readyToClose ∧ current - c.stateBegin > 15000) .terminating begin

def flushPing (c : Conn) (current : UInt32) : Conn × List Segment :=
  if current - c.lastPing ≥ 3000 then
    ({ c with lastPing := current }, [.cmdOnly (c.pingSegment commandPing)])
  else (c, [])

/-- The segments of an ordinary flush, in order. -/
def flushActive (c : Conn) (current : UInt32) : Conn × List Segment :=
  let acks := c.flushAcks current
  let data := acks.1.flushSend current
  let ping := data.1.flushPing current
  (ping.1, acks.2.map .ack ++ (data.2 ++ ping.2))

def flush (c : Conn) (current begin : UInt32) : Conn × List Segment :=
  if c.state = .terminated then (c, [])
  else
    let c := c.flushState current begin
    if c.state = .terminating then c.flushTerminating current begin
    else (c.flushTimeouts current begin).flushActive current

end Conn

end Mkcp
