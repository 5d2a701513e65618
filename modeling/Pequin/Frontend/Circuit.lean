import Pequin.Backend.Text
import Pequin.Frontend.Factors

/-!
# The text of a polynomial in a circuit

`toCircuit` prints a polynomial as `C1 * ( P + ( Q ) )`, where `P` is a product of two polynomials
and `Q` a sum of terms. The second pass of the compiler reads this text again (`parsePoly`), and
`ConstraintWriter` copies its three parts into a constraint.

Whether the first term is printed as the product is decided by the degree that the polynomial
stores.
-/

namespace Pequin

namespace Frontend

open Bracket

/-! ## Printing -/

/-- The constant before the factors of a term. -/
def constantNodes (c : ℤ) (noFactors : Bool) : List (Node (Word ℕ)) :=
  if noFactors then [.flat (.int c)]
  else if c = 1 then []
  else if c = -1 then [.flat .minus]
  else [.flat (.int c), .flat .star]

mutual
/-- `PolynomialTerm.toCircuit`. -/
def PolynomialTerm.nodes : PolynomialTerm ℤ → List (Node (Word ℕ))
  | .mk c ms ps _ =>
    constantNodes c (ms.isEmpty && ps.isEmpty) ++
      (ms.map (fun x => Node.flat (Word.name x)) ++ PolynomialTerm.groups ps).intersperse
        (.flat .star)

def PolynomialTerm.groups : List (PolynomialExpression ℤ) → List (Node (Word ℕ))
  | [] => []
  | p :: ps => .group p.nodes :: PolynomialTerm.groups ps

def PolynomialExpression.nodes : PolynomialExpression ℤ → List (Node (Word ℕ))
  | .mk ts _ => PolynomialExpression.sumNodes ts

def PolynomialExpression.sumNodes : List (PolynomialTerm ℤ) → List (Node (Word ℕ))
  | [] => []
  | [t] => t.nodes
  | t :: u :: ts => t.nodes ++ .flat .plus :: PolynomialExpression.sumNodes (u :: ts)
end

/-- The constants of the terms are multiplied in place. -/
def PolynomialExpression.scale (c : ℤ) : PolynomialExpression ℤ → PolynomialExpression ℤ
  | .mk ts added => .mk (ts.map fun t => t.withConstant (t.constant * c)) added

/-- The first polynomial with `n` terms is scaled. -/
def scaleFirst (c : ℤ) (n : ℕ) : List (PolynomialExpression ℤ) → List (PolynomialExpression ℤ)
  | [] => []
  | p :: ps => if p.terms.length = n then p.scale c :: ps else p :: scaleFirst c n ps

def minTerms (ps : List (PolynomialExpression ℤ)) : ℕ :=
  ((ps.map fun p => p.terms.length).min?).getD 0

/-- The constant becomes a factor of the first monomer, or of the shortest polynomial. -/
def absorbConstant (L : Lookup ℤ) (c : ℤ) (d : ℕ) :
    List ℕ → List (PolynomialExpression ℤ) → Option (PolynomialTerm ℤ)
  | x :: ms, ps =>
    let rep := PolynomialExpression.zero.addMultiplesOfTerm 1
      ((PolynomialTerm.one.addConst c).addMonomer L x)
    some (PolynomialTerm.simplifyProduct L (.mk 1 (sortMonomers ms) (sortPolys (ps ++ [rep])) d))
  | [], p :: ps =>
    some (PolynomialTerm.simplifyProduct L
      (.mk 1 [] (sortPolys (scaleFirst c (minTerms (p :: ps)) (p :: ps))) d))
  | [], [] => none

def PolynomialTerm.toUnitConstantForm (L : Lookup ℤ) : PolynomialTerm ℤ → Option (PolynomialTerm ℤ)
  | .mk c ms ps d =>
    if c = 1 then some (.mk c ms ps d)
    else if c = 0 then none
    else absorbConstant L c d ms ps

/-- The factors of a term, each in parentheses. -/
def PolynomialTerm.productNodes (t : PolynomialTerm ℤ) : List (Node (Word ℕ)) :=
  (t.monomerFactors.map (fun x => Node.group [.flat (Word.name x)]) ++
    PolynomialTerm.groups t.polyFactors).intersperse (.flat .star)

def PolynomialExpression.parts (L : Lookup ℤ) (p : PolynomialExpression ℤ) :
    Option (List (Node (Word ℕ)) × List (PolynomialTerm ℤ)) :=
  if p.degree = 2 then
    match p.terms with
    | [] => none
    | t :: rest => (t.duplicate.toUnitConstantForm L).map fun t => (t.productNodes, rest)
  else some ([.group [], .flat .star, .group []], p.terms)

/-- What stands in the outer parentheses of a polynomial in a circuit. -/
def bodyNodes (product : List (Node (Word ℕ))) (rest : List (PolynomialTerm ℤ)) :
    List (Node (Word ℕ)) :=
  product ++ [.flat .plus, .group (PolynomialExpression.sumNodes rest)]

/-- `PolynomialExpression.toCircuit`; `none` stands for an exception. -/
def PolynomialExpression.toCircuit (L : Lookup ℤ) (p : PolynomialExpression ℤ) : Option (Text ℕ) :=
  (p.parts L).map fun s => listSymbols [.flat (.int 1), .flat .star, .group (bodyNodes s.1 s.2)]

/-! ## Reading -/

/-- A word of a circuit line: the polynomial ends with `]`, and the words of a comment follow. -/
inductive CircuitWord where
  | arith (w : Word ℕ)
  | bracket
  | comment (s : String)

abbrev CircuitText := List (Symbol CircuitWord)

/-- The polynomial of a circuit line and what follows. -/
def circuitText (text : Text ℕ) (comment : List String) : CircuitText :=
  text.map (Symbol.map .arith) ++ .flat .bracket :: comment.map fun s => .flat (.comment s)

/-- The variables of `parsePoly`. -/
structure ParseFrame where
  pe : PolynomialExpression ℤ
  term : PolynomialTerm ℤ
  isEmpty : Bool

namespace ParseFrame

def init : ParseFrame := ⟨.zero, .one, true⟩

def result (f : ParseFrame) : PolynomialExpression ℤ :=
  if f.isEmpty then f.pe else f.pe.addMultiplesOfTerm 1 f.term

end ParseFrame

/-- What the reader knows of the variables, and the variable that a line copies: `parseLvalConst`
puts it in the place of the line. -/
structure Known extends Lookup ℤ where
  copyOf : ℕ → ℕ

/-- An assignment agrees with what the reader knows. -/
structure Known.Holds {R : Type} [CommRing R] (K : Known) (z : ℕ → R) : Prop
    extends K.toLookup.Holds z where
  copyOf : ∀ x, z (K.copyOf x) = z x

variable (K : Known)

/-- A variable is multiplied to the term as `parseLvalConst` finds it. -/
def PolynomialTerm.addParsed (t : PolynomialTerm ℤ) (x : ℕ) : PolynomialTerm ℤ :=
  match K.const x with
  | some c => t.addConst c
  | none => t.addLval K.toLookup (K.copyOf x)

/-- One round of the loop of `parsePoly`; a parenthesis is a recursive call. -/
def parser : Reader (Word ℕ) ParseFrame where
  init := .init
  flat f
    | .plus => { f with pe := f.pe.addMultiplesOfTerm 1 f.term, term := .one }
    | .minus => { f with term := f.term.addConst (-1) }
    | .star => f
    | .int c => { f with term := f.term.addConst c, isEmpty := false }
    | .name x => { f with term := f.term.addParsed K x, isEmpty := false }
  group f g := { f with term := f.term.addPoly K.toLookup g.result, isEmpty := false }

/-- `parsePoly` up to `]`, with the frames of the calls that wait. -/
def parsePoly : List ParseFrame × ParseFrame → CircuitText → Option (PolynomialExpression ℤ)
  | ([], f), .flat .bracket :: _ => some f.result
  | s, .opening :: cs => ((parser K).step s .opening).bind fun s => parsePoly s cs
  | s, .closing :: cs => ((parser K).step s .closing).bind fun s => parsePoly s cs
  | s, .flat (.arith w) :: cs => ((parser K).step s (.flat w)).bind fun s => parsePoly s cs
  | _, _ => none

/-- A factor or a summand of a simple expression. -/
inductive LvalConst where
  | const (c : ℤ)
  | lval (x : ℕ)

/-- The right side of an assignment that was read. -/
inductive ParsedRhs where
  | poly (p : PolynomialExpression ℤ)
  | plus (a b : LvalConst)
  | times (a b : LvalConst)

def PolynomialTerm.toLvalConst : PolynomialTerm ℤ → Option LvalConst
  | .mk c ms ps d =>
    if d = 0 then some (.const c)
    else match ms, ps with
      | [x], [] => if c = 1 then some (.lval x) else none
      | _, _ => none

/-- A sum or a product of two variables or constants is made a simple expression. -/
def simplifyPoly (p : PolynomialExpression ℤ) : ParsedRhs :=
  match p.terms with
  | [t, u] =>
    match t.toLvalConst, u.toLvalConst with
    | some a, some b => .plus a b
    | _, _ => .poly p
  | [.mk c ms [] d] =>
    match ms with
    | [x] => if d = 1 then .times (.const c) (.lval x) else .poly p
    | [x, y] => if d = 2 ∧ c = 1 then .times (.lval x) (.lval y) else .poly p
    | _ => .poly p
  | _ => .poly p

def parseRhs (text : CircuitText) : Option ParsedRhs :=
    (parsePoly K ([], .init) text).map simplifyPoly

/-! ## Writing the constraint -/

section
variable {ν : Type} (varName : ℕ → ν)

/-- `getConstraintTerm` of an arithmetic word. -/
def renameWord : Word ℕ → Word ν
  | .plus => .plus
  | .minus => .minus
  | .star => .star
  | .int c => .int c
  | .name x => .name (varName x)

/-- `getConstraintTerm`. A `]` or a word of a comment is copied by the code, too, but no closing
parenthesis follows, and the scanner runs out of words. -/
def getConstraintTerm : CircuitWord → Option (Word ν)
  | .arith w => some (renameWord varName w)
  | .bracket | .comment _ => none

/-- `in.next()` of a word that is not looked at. -/
def skip : CircuitText → Option CircuitText
  | [] => none
  | _ :: cs => some cs

/-- `compilePolyConstraint` for an integer polynomial; the name of the target is `varName
target`. -/
def compilePolyConstraint (target : ℕ) : CircuitText → Option (Text ν)
  | .flat (.arith (.int 1)) :: cs => do
    let cs ← skip cs
    let cs ← skip cs
    let cs ← skip cs
    let (pA, cs) ← copy (getConstraintTerm varName) 0 cs
    let cs ← skip cs
    let cs ← skip cs
    let (pB, cs) ← copy (getConstraintTerm varName) 0 cs
    let cs ← skip cs
    let cs ← skip cs
    let (pC, cs) ← copy (getConstraintTerm varName) 0 cs
    let cs ← skip cs
    match cs with
    | .flat .bracket :: _ =>
      some (.opening :: pA ++ [.closing, .flat .star, .opening] ++ pB ++
        [.closing, .flat .plus, .opening] ++ pC ++
        [.flat .minus, .flat (.name (varName target)), .closing])
    | _ => none
  | _ => none

end

end Frontend

end Pequin
