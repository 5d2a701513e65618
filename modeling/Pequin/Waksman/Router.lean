import Pequin.Waksman.Network

/-!
# The router

`wakRoute` sorts the memory operations by address and timestamp and finds the switches and the inner
wires of the permutation network that sort them. One level of `route` decides for every packet
whether it goes through the upper or the lower subnetwork: it walks from the right to the left and
back, along the switches, until every packet is routed, and then routes the two subnetworks.

An array is a function of its index; `b` and `s` are the offsets of `intermediate` and `left_sw` in
the arrays of the whole network. A failed assertion is `none`.
-/

namespace Pequin

structure Packet (α : Type) where
  data : α
  src : ℕ
  dst : ℕ
  routed : Bool

structure RoutingSwitch where
  swap : Bool
  set : Bool
  deriving DecidableEq, Repr

/-- The arrays of one call of `route`. -/
structure RouteState (α : Type) where
  leftPkt : ℕ → Packet α
  rightPkt : ℕ → Packet α
  intermediate : ℕ → α
  sw : ℕ → RoutingSwitch
  topLeft : ℕ → Packet α
  topRight : ℕ → Packet α
  botLeft : ℕ → Packet α
  botRight : ℕ → Packet α

section
variable {α : Type}

def markRouted (pkts : ℕ → Packet α) (i : ℕ) : ℕ → Packet α :=
  Function.update pkts i { pkts i with routed := true }

namespace RouteState

/-- A packet goes to the lower or to the upper subnetwork. -/
def enter (routeBot : Bool) (tmp : Packet α) (st : RouteState α) : RouteState α :=
  if routeBot then
    { st with
      botLeft := Function.update st.botLeft tmp.src tmp
      botRight := Function.update st.botRight tmp.dst tmp }
  else
    { st with
      topLeft := Function.update st.topLeft tmp.src tmp
      topRight := Function.update st.topRight tmp.dst tmp }

/-- The first packet goes through the lower subnetwork and sets its switch on the left. The second
component is `nextIndex`, where `none` is `-1`. -/
def firstSwitch (n b s otherIndex : ℕ) (data : α) (st : RouteState α) : RouteState α × Option ℕ :=
  if otherIndex % 2 = 1 then
    ({ st with
      sw := Function.update st.sw (s + otherIndex / 2) ⟨false, true⟩
      intermediate := Function.update st.intermediate (b + otherIndex) data },
      some (otherIndex - 1))
  else if otherIndex = n - 1 then (st, none)
  else
    ({ st with
      sw := Function.update st.sw (s + otherIndex / 2) ⟨true, true⟩
      intermediate := Function.update st.intermediate (b + (otherIndex + 1)) data },
      some (otherIndex + 1))

/-- The last packet on the right is routed back. -/
def first (n b s : ℕ) (st : RouteState α) : RouteState α × Option ℕ :=
  let tmp := st.rightPkt (n - 1)
  let otherIndex := tmp.src
  let st := { st with
    rightPkt := markRouted st.rightPkt (n - 1)
    leftPkt := markRouted st.leftPkt otherIndex }
  let tmp := { tmp with dst := (n + 1) / 2 - 1, src := otherIndex / 2 }
  let (st, nextIndex) := st.firstSwitch n b s otherIndex tmp.data
  (st.enter true tmp, nextIndex)

/-- `index + offset`: the other wire of the switch if it is crossed. -/
def wireIndex (index : ℕ) (swap : Bool) : ℕ :=
  if index % 2 = 1 ∧ swap then index - 1 else if index % 2 = 0 ∧ swap then index + 1 else index

/-- The packet at `index` follows its switch, which is set straight if it is not set yet. The first
component tells whether it goes to the lower subnetwork. -/
def follow (swOffset offset index : ℕ) (data : α) (st : RouteState α) : Bool × RouteState α :=
  let sw := if (st.sw (swOffset + index / 2)).set then st.sw
    else Function.update st.sw (swOffset + index / 2) ⟨false, true⟩
  let swap := (sw (swOffset + index / 2)).swap
  ((index % 2 = 0 && swap) || (index % 2 = 1 && !swap),
    { st with
      sw
      intermediate := Function.update st.intermediate (offset + wireIndex index swap) data })

/-- The switch at `index` is set so that the packet goes to the subnetwork it comes from; a switch
that is set already has to agree. -/
def settle (swOffset offset index : ℕ) (routeBot : Bool) (data : α) (st : RouteState α) :
    Option (RouteState α) :=
  let swap := (index % 2 = 1) ^^ routeBot
  let sw := if (st.sw (swOffset + index / 2)).set then st.sw
    else Function.update st.sw (swOffset + index / 2) ⟨swap, true⟩
  if (sw (swOffset + index / 2)).swap = swap then
    some { st with
      sw
      intermediate := Function.update st.intermediate (offset + wireIndex index swap) data }
  else none

/-- The other packet of the switch. -/
def sibling (index : ℕ) : ℕ := if index % 2 = 1 then index - 1 else index + 1

/-- A packet leaves on the left; the last one of an odd number is at a link. -/
def leaveLeft (n b s index : ℕ) (data : α) (st : RouteState α) : Bool × RouteState α :=
  if index = n - 1 ∧ n % 2 = 1 then (true, st) else st.follow s b index data

/-- A packet arrives on the right; the last one, or the last two of an even number, are at links. -/
def arriveRight (n b s rightIndex : ℕ) (routeBot : Bool) (data : α) (st : RouteState α) :
    Option (RouteState α × Option ℕ) :=
  if rightIndex = n - 1 ∨ rightIndex = n - 2 ∧ n % 2 = 0 then some (st, none)
  else
    (st.settle (s + n / 2) (b + n / 2 * 2) rightIndex routeBot data).map fun st =>
      (st, some (sibling rightIndex))

def leftToRight (n b s index : ℕ) (st : RouteState α) : Option (RouteState α × Option ℕ) :=
  let tmp := st.leftPkt index
  let rightIndex := tmp.dst
  let st := { st with
    leftPkt := markRouted st.leftPkt index
    rightPkt := markRouted st.rightPkt rightIndex }
  let tmp := { tmp with src := index / 2, dst := rightIndex / 2 }
  let (routeBot, st) := st.leaveLeft n b s index tmp.data
  (st.arriveRight n b s rightIndex routeBot tmp.data).map fun (st, nextIndex) =>
    (st.enter routeBot tmp, nextIndex)

/-- A packet leaves on the right; the last but one of an even number is at a link. In a network of
three, the wire comes one place earlier. -/
def leaveRight (n b s rightIndex : ℕ) (data : α) (st : RouteState α) : Bool × RouteState α :=
  let is3 := if n = 3 then 1 else 0
  if rightIndex = n - 2 ∧ n % 2 = 0 then (false, st)
  else st.follow (s + n / 2) (b + n / 2 * 2 - is3) rightIndex data

def arriveLeft (n b s leftIndex : ℕ) (routeBot : Bool) (data : α) (st : RouteState α) :
    Option (RouteState α × Option ℕ) :=
  if leftIndex = n - 1 ∧ n % 2 = 1 then some (st, none)
  else (st.settle s b leftIndex routeBot data).map fun st => (st, some (sibling leftIndex))

def rightToLeft (n b s rightIndex : ℕ) (st : RouteState α) : Option (RouteState α × Option ℕ) :=
  let tmp := st.rightPkt rightIndex
  let leftIndex := tmp.src
  let st := { st with
    leftPkt := markRouted st.leftPkt leftIndex
    rightPkt := markRouted st.rightPkt rightIndex }
  let tmp := { tmp with src := leftIndex / 2, dst := rightIndex / 2 }
  let (routeBot, st) := st.leaveRight n b s rightIndex tmp.data
  (st.arriveLeft n b s leftIndex routeBot tmp.data).map fun (st, nextIndex) =>
    (st.enter routeBot tmp, nextIndex)

/-- `nextIndex` if that packet is not routed, and the first one that is not routed otherwise. -/
def pick (pkts : ℕ → Packet α) (n : ℕ) (nextIndex : Option ℕ) : Option ℕ :=
  match nextIndex.filter fun i => !(pkts i).routed with
  | some i => some i
  | none => (List.range n).find? fun i => !(pkts i).routed

def loop (n b s : ℕ) : ℕ → Option ℕ → RouteState α → Option (RouteState α)
  | 0, _, _ => none
  | fuel + 1, nextIndex, st =>
    match pick st.leftPkt n nextIndex with
    | none => some st
    | some index =>
      (st.leftToRight n b s index).bind fun (st, nextIndex) =>
        match pick st.rightPkt n nextIndex with
        | none => some st
        | some rightIndex =>
          (st.rightToLeft n b s rightIndex).bind fun (st, nextIndex) => loop n b s fuel nextIndex st

end RouteState

variable [DecidableEq α]

/-- The local arrays start with the packet `junk` everywhere. -/
def route (junk : Packet α) (leftPkt rightPkt : ℕ → Packet α) (intermediate : ℕ → α)
    (sw : ℕ → RoutingSwitch) (b s n : ℕ) : Option ((ℕ → α) × (ℕ → RoutingSwitch)) :=
  match n with
  | 0 => none
  | 1 => if (leftPkt 0).data = (rightPkt 0).data then some (intermediate, sw) else none
  | 2 =>
    if (sw s).set then none
    else if (leftPkt 0).data = (rightPkt 0).data then
      some (intermediate, Function.update sw s ⟨false, true⟩)
    else if (leftPkt 0).data = (rightPkt 1).data then
      some (intermediate, Function.update sw s ⟨true, true⟩)
    else none
  | m + 3 =>
    let n := m + 3
    let st : RouteState α := ⟨leftPkt, rightPkt, intermediate, sw, fun _ => junk, fun _ => junk,
      fun _ => junk, fun _ => junk⟩
    let (st, nextIndex) := st.first n b s
    (st.loop n b s n nextIndex).bind fun st =>
      let topVars := b + n / 2 * 2 + rightSwitchCount n * 2
      let topSwitches := s + n / 2 + rightSwitchCount n
      let topSwc := numSwitches (n / 2)
      (route junk st.topLeft st.topRight st.intermediate st.sw topVars topSwitches (n / 2)).bind
        fun (intermediate, sw) =>
          route junk st.botLeft st.botRight intermediate sw (topVars + 2 * topSwc - n / 2)
            (topSwitches + topSwc) ((n + 1) / 2)
termination_by n
decreasing_by all_goals omega

end

/-! ## Sorting -/

/-- `packet_cmp(a, b) < 0`. -/
def MemOp.before (a b : MemOp ℤ) : Bool :=
  if a.addr = b.addr then a.ts < b.ts else a.addr < b.addr

/-- The packets with their places in the input and in the sorted order. `qsort` is a sort by
merging: with different keys there is only one sorted order. -/
def sortPacket (input : List (MemOp ℤ)) : List (Packet (MemOp ℤ)) :=
  let packets := input.mapIdx fun i data => (⟨data, i, 0, false⟩ : Packet (MemOp ℤ))
  let packets := packets.mergeSort fun a b => !b.data.before a.data
  let packets := packets.mapIdx fun i packet => { packet with dst := i }
  packets.mergeSort fun a b => a.src ≤ b.src

/-- The inner wires, the outputs and the switches, for at least two inputs; `intermediate` and `sw`
are what the arrays hold before. -/
def wakRoute (junk : Packet (MemOp ℤ)) (input : List (MemOp ℤ)) (intermediate : ℕ → MemOp ℤ)
    (sw : ℕ → RoutingSwitch) : Option ((ℕ → MemOp ℤ) × List (MemOp ℤ) × (ℕ → RoutingSwitch)) :=
  let width := input.length
  let sw := fun i => if i < numSwitches width then { sw i with set := false } else sw i
  if width < 2 then none
  else
    let packets := sortPacket input
    let leftPackets := fun i => packets[i]?.getD junk
    let rightPackets := (List.range width).foldl
      (fun right i => Function.update right (leftPackets i).dst (leftPackets i)) fun _ => junk
    let output := (List.range width).map fun i => (rightPackets i).data
    (route junk leftPackets rightPackets intermediate sw 0 0 width).map fun (intermediate, sw) =>
      (intermediate, output, sw)

end Pequin
