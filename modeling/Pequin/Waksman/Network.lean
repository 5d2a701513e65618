import Pequin.Ram.Consistency

/-!
# The permutation network

`waksman` builds the switches of a permutation network over named wires. A network of more than two
wires has a column of switches on the left, one on the right, and between them a network for the
upper and one for the lower outputs of the left switches; a wire that is not switched is a link.
The backend writes the constraints of the switches (`waksmanNetworkAsBasicConstraints`) and the
names of the wires in the order in which the prover fills them
(`generateWaksmanNetworkVariableNames`).
-/

namespace Pequin

/-! ## Building the network -/

/-- The upper or the lower end of a switch: `Tsw%d` or `Bsw%d`. -/
inductive SwitchEnd where
  | T (i : ℕ)
  | B (i : ℕ)
  deriving DecidableEq, Repr

def SwitchEnd.name : SwitchEnd → Name
  | .T i => .sw i
  | .B i => .spec ("Bsw" ++ toString i)

/-- One end of a switch with its wires, `source -> switch -> target`. -/
structure Hook where
  source : Wire
  switch : SwitchEnd
  target : Wire
  deriving DecidableEq, Repr

/-- The counters of switches and of nodes, and the switches so far. -/
structure Wak where
  swc : ℕ
  varct : ℕ
  hooked : List Hook
  deriving DecidableEq, Repr

def mkSwitches (n : ℕ) (w : Wak) : List SwitchEnd × Wak :=
  ((List.range n).flatMap fun i => [.T (w.swc + i), .B (w.swc + i)], { w with swc := w.swc + n })

def mkNodes (n : ℕ) (str : ℕ → Wire) (w : Wak) : List Wire × Wak :=
  ((List.range n).map fun i => str (w.varct + i), { w with varct := w.varct + n })

/-- The state of the loop over one column: the wires for the upper and for the lower subnetwork. -/
structure Column where
  wak : Wak
  top : List Wire
  bot : List Wire
  deriving DecidableEq, Repr

/-- Whether the wire `i` of `n` goes through the lower subnetwork. -/
def goesBottom (n i : ℕ) : Bool := i % 2 = 1 ∨ n % 2 = 1 ∧ i = n - 1

/-- One pass of the loop. The wire next to a link is `node` itself, the wire next to a switch is
new. `hook` puts the end of a switch between `node` and the new wire. -/
def Column.step (hook : Wire → SwitchEnd → Wire → Hook) (n i : ℕ) (node : Wire)
    (switch : Option SwitchEnd) (c : Column) : Column :=
  let (var, wak) := match switch with
    | none => (node, c.wak)
    | some e =>
      let var := Wire.V c.wak.varct
      (var, { c.wak with
        varct := c.wak.varct + 1
        hooked := c.wak.hooked ++ [hook node e var] })
  if goesBottom n i then { wak, top := c.top, bot := c.bot ++ [var] }
  else { wak, top := c.top ++ [var], bot := c.bot }

def Column.loop (hook : Wire → SwitchEnd → Wire → Hook) (n : ℕ) :
    ℕ → List (Wire × Option SwitchEnd) → Column → Column
  | _, [], c => c
  | i, (node, switch) :: rest, c => Column.loop hook n (i + 1) rest (c.step hook n i node switch)

def leftHook (input : Wire) (switch : SwitchEnd) (var : Wire) : Hook := ⟨input, switch, var⟩

def rightHook (output : Wire) (switch : SwitchEnd) (var : Wire) : Hook := ⟨var, switch, output⟩

/-- The base case of one wire. The wires on both sides of it are one wire under two names; the
target in `hooked[-4]` is replaced by the source in `hooked[-2]`. -/
def Wak.patch (w : Wak) : Wak :=
  match w.hooked.reverse with
  | h1 :: h2 :: h3 :: h4 :: rest =>
    { w with hooked := (h1 :: h2 :: h3 :: { h4 with target := h2.source } :: rest).reverse }
  | _ => w

/-- `leftSwitchCount - 1 + (n % 2)`, the number of switches on the right; the last wires are
links. -/
def rightSwitchCount (n : ℕ) : ℕ := n / 2 + n % 2 - 1

def buildwak (w : Wak) (inputs outputs : List Wire) (n : ℕ) : Wak :=
  match n with
  | 0 => w
  | 1 => w.patch
  | 2 =>
    let (sw, w) := mkSwitches 1 w
    match inputs, sw, outputs with
    | [i0, i1], [s0, s1], [o0, o1] => { w with hooked := w.hooked ++ [⟨i0, s0, o0⟩, ⟨i1, s1, o1⟩] }
    | _, _, _ => w
  | m + 3 =>
    let n := m + 3
    let (left, w) := mkSwitches (n / 2) w
    let leftSwitches := left.map some ++ if n % 2 = 1 then [none] else []
    let (right, w) := mkSwitches (rightSwitchCount n) w
    let rightSwitches := right.map some ++ if n % 2 = 1 then [none] else [none, none]
    let l := Column.loop leftHook n 0 (inputs.zip leftSwitches) ⟨w, [], []⟩
    let r := Column.loop rightHook n 0 (outputs.zip rightSwitches) ⟨l.wak, [], []⟩
    let w := buildwak r.wak l.top r.top (n / 2)
    buildwak w l.bot r.bot ((n + 1) / 2)
termination_by n
decreasing_by all_goals omega

def waksman (n : ℕ) : List Hook :=
  let (inputs, w) := mkNodes n .I ⟨0, 0, []⟩
  let (outputs, w) := mkNodes n .O { w with varct := 0 }
  (buildwak { w with varct := 0 } inputs outputs n).hooked

/-! ## The switches -/

structure Switch where
  s1 : Wire
  s2 : Wire
  t1 : Wire
  t2 : Wire
  sw : SwitchEnd
  deriving DecidableEq, Repr

def parseNet (top bot : Hook) : Switch := ⟨top.source, bot.source, top.target,
    bot.target, top.switch⟩

/-- The switches of a list in which the two ends of each follow each other. -/
def parseNets : List Hook → List Switch
  | top :: bot :: rest => parseNet top bot :: parseNets rest
  | _ => []

/-! ## What the backend writes -/

def vartypes : List VarType := [.addr, .timestamp, .type, .value]

section
variable (input : List (MemOp (Arg Name)))

/-- The component `k` of a source: of the input `I%d`, or of an inner wire. -/
def sourceIndex (k : VarType) : Wire → Arg Name
  | .I i => (input[i]?.map fun op => op.get k).getD (.var (.wire (.I i) k))
  | w => .var (.wire w k)

/-- The line `( source2 - source1 ) * ( sw ) + ( source1 - target )`. -/
def switchLine (source1 source2 sw target : Arg Name) : Line Name :=
  ⟨some (source2.sum.sub source1), some sw.sum, some (source1.sum.sub target)⟩

/-- The lines for one component of a switch. Nothing is written unless both sources are inner
wires. -/
def genWaksmanSwitch (s : Switch) (k : VarType) : List (Line Name) :=
  match s.s1 with
  | .I _ => []
  | _ =>
    match s.s2 with
    | .I _ => []
    | _ =>
      let sourceIndex1 := sourceIndex input k s.s1
      let sourceIndex2 := sourceIndex input k s.s2
      let swIndex := Arg.var s.sw.name
      [switchLine sourceIndex1 sourceIndex2 swIndex (.var (.wire s.t1 k)),
       switchLine sourceIndex2 sourceIndex1 swIndex (.var (.wire s.t2 k)),
       ⟨some ((Arg.const 1).sum.sub swIndex), some swIndex.sum,
         some ((Arg.const 0).sum.sub (.const 0))⟩]

def waksmanNetworkAsBasicConstraints (width : ℕ) : List (Line Name) :=
  (parseNets (waksman width)).flatMap fun s => vartypes.flatMap (genWaksmanSwitch input s)

end

/-- The names of the components of a wire. -/
def nodeNames (w : Wire) : List Name := vartypes.map (.wire w)

def Wire.isV : Wire → Bool
  | .V _ => true
  | _ => false

def Wire.isO : Wire → Bool
  | .O _ => true
  | _ => false

/-- The inner wires of a switch in the order in which they are named. -/
def Switch.intermediate (s : Switch) : List Wire :=
  (if s.s1.isV then [s.s1] else []) ++ (if s.s2.isV then [s.s2] else []) ++
    (if s.t1.isO then [] else [s.t1]) ++ if s.t2.isO then [] else [s.t2]

def Switch.outputs (s : Switch) : List Wire :=
  (if s.t1.isO then [s.t1] else []) ++ if s.t2.isO then [s.t2] else []

/-- `ceil(log2(1)) + … + ceil(log2(n))`. -/
def numSwitches (n : ℕ) : ℕ := ((List.range n).map fun i => Nat.clog 2 (i + 1)).sum

/-- The names of the inner wires, of the outputs and of the switches. An inner wire is named once
for every switch it touches; only the first time counts. -/
def generateWaksmanNetworkVariableNames (width : ℕ) : List Name × List Name × List Name :=
  let network := parseNets (waksman width)
  (network.flatMap fun s => s.intermediate.flatMap nodeNames,
    network.flatMap fun s => s.outputs.flatMap nodeNames,
    (List.range (numSwitches width)).map .sw)

end Pequin
