import Pequin.Backend.Constraint
import Pequin.Lib.Bracket

/-!
# The value of a text

The text of a polynomial is read from left to right as arithmetic: factors follow each other with or
without a `*`, `+` ends a term, and `-` ends a term, if there is one, and negates the next. On the
text of a basic constraint this is the value of the constraint.
-/

namespace Pequin

open Bracket

/-- A word of a polynomial in a circuit or in a constraint, where variables have names in `ν`. -/
inductive Word (ν : Type) where
  | plus
  | minus
  | star
  | int (c : ℤ)
  | name (x : ν)
  deriving DecidableEq

abbrev Text (ν : Type) := List (Symbol (Word ν))

/-- The terms that are complete, the product of the factors of the current term, and whether it has
any. -/
structure ValueFrame (R : Type) where
  sum : R
  term : R
  seen : Bool

namespace ValueFrame
variable {R : Type} [CommRing R]

def init : ValueFrame R := ⟨0, 1, false⟩

def value (f : ValueFrame R) : R := if f.seen then f.sum + f.term else f.sum

def factor (f : ValueFrame R) (v : R) : ValueFrame R := ⟨f.sum, f.term * v, true⟩

def plus (f : ValueFrame R) : ValueFrame R := ⟨f.value, 1, false⟩

def minus (f : ValueFrame R) : ValueFrame R :=
  if f.seen then ⟨f.value, -1, false⟩ else ⟨f.sum, -f.term, false⟩

theorem factor_factor (f : ValueFrame R) (v w : R) : (f.factor v).factor w = f.factor (v * w) := by
  rw [factor, factor, factor, mul_assoc]

@[simp] theorem value_factor (f : ValueFrame R) (v : R) : (f.factor v).value = f.sum + f.term * v :=
  if_pos rfl

end ValueFrame

section
variable {ν R : Type} [CommRing R]

def readWord (z : ν → R) (f : ValueFrame R) : Word ν → ValueFrame R
  | .plus => f.plus
  | .minus => f.minus
  | .star => f
  | .int c => f.factor c
  | .name x => f.factor (z x)

def arithmetic (z : ν → R) : Reader (Word ν) (ValueFrame R) where
  init := .init
  flat := readWord z
  group f g := f.factor g.value

def textValue (z : ν → R) (text : Text ν) : Option R :=
  match (arithmetic z).run ([], .init) text with
  | some ([], f) => some f.value
  | _ => none

theorem textValue_listSymbols (z : ν → R) (ts : List (Node (Word ν))) :
    textValue z (listSymbols ts) = some ((arithmetic z).eval .init ts).value := by
  rw [textValue, Reader.run_listSymbols]

/-! ## Basic constraints -/

def Token.symbol : Token ν → Symbol (Word ν)
  | .lpar => .opening
  | .rpar => .closing
  | .plus => .flat .plus
  | .minus => .flat .minus
  | .star => .flat .star
  | .int c => .flat (.int c)
  | .name x => .flat (.name x)

/-- The tokens take the reader from one frame to another. -/
def Evaluates (z : ν → R) (toks : List (Token ν)) (f f' : ValueFrame R) : Prop :=
  ∀ below, (arithmetic z).run (below, f) (toks.map Token.symbol) = some (below, f')

namespace Evaluates
variable {z : ν → R} {f f' f'' : ValueFrame R} {toks toks' : List (Token ν)}

theorem nil : Evaluates z [] f f := fun _ => rfl

theorem append (h : Evaluates z toks f f')
    (h' : Evaluates z toks' f' f'') : Evaluates z (toks ++ toks') f f'' := by
  intro below
  rw [List.map_append, Reader.run_append, h, Option.bind_some, h']

theorem cons {tok : Token ν} (h : Evaluates z [tok] f f')
    (h' : Evaluates z toks f' f'') : Evaluates z (tok :: toks) f f'' := h.append h'

theorem star : Evaluates z [.star] f f := fun _ => rfl

theorem int (c : ℤ) : Evaluates z [.int c] f (f.factor c) := fun _ => rfl

theorem name (x : ν) : Evaluates z [.name x] f (f.factor (z x)) := fun _ => rfl

theorem paren (h : Evaluates z toks .init f') :
    Evaluates z (.lpar :: (toks ++ [.rpar])) f (f.factor f'.value) := by
  intro below
  rw [List.map_cons, Reader.run, Token.symbol, Reader.step, Option.bind_some, List.map_append,
    Reader.run_append, show (arithmetic z).init = .init from rfl, h, Option.bind_some]
  rfl

theorem preTokens (cs : List NonzeroInt) (f : ValueFrame R) :
    ∃ g, Evaluates z (preTokens cs) f g ∧ ∀ v, g.factor v = f.factor (constProd cs * v) := by
  induction cs generalizing f with
  | nil => exact ⟨f, nil, fun v => by simp⟩
  | cons c cs ih =>
    obtain ⟨g, hg, hfactor⟩ := ih (f.factor c)
    refine ⟨g, (int c).cons (star.cons hg), fun v => ?_⟩
    rw [hfactor, ValueFrame.factor_factor, constProd_cons, Int.cast_mul, mul_assoc]

theorem constTokens (cs : List NonzeroInt) (f : ValueFrame R) (v : R) :
    Evaluates z (constTokens cs) (f.factor v) (f.factor (v * (constProd cs : R))) := by
  induction cs generalizing v with
  | nil => simpa using! nil
  | cons c cs ih =>
    refine star.cons ((int c).cons ?_)
    rw [ValueFrame.factor_factor, constProd_cons, Int.cast_mul, ← mul_assoc]
    exact ih _

/-- A sign ends the current term. -/
theorem sign (s : Sign) (f : ValueFrame R) (hf : f.seen = true ∨ f.term = 1) :
    Evaluates z s.tokens f ⟨f.value, s.apply 1, false⟩ := by
  intro below
  obtain ⟨sum, term, seen⟩ := f
  obtain ⟨afterPlus, neg⟩ := s
  rcases hf with rfl | rfl
  · cases afterPlus <;> cases neg <;> rfl
  · cases afterPlus <;> cases neg <;> cases seen <;> rfl

mutual
theorem term : (t : Term ν) → (f : ValueFrame R) → Evaluates z t.tokens f (f.factor (t.eval z))
  | .zero, f => by simpa [Term.tokens, Term.eval] using int (z := z) (f := f) 0
  | .const c cs, f => (int c).cons (Evaluates.constTokens cs f c)
  | .var pre x post, f => by
    obtain ⟨g, hg, hfactor⟩ := Evaluates.preTokens (z := z) pre f
    have hpost := Evaluates.constTokens (z := z) post g (z x)
    rw [hfactor (z x * _), ← mul_assoc] at hpost
    exact hg.append ((name x).cons hpost)
  | .paren pre s post, f => by
    obtain ⟨g, hg, hfactor⟩ := Evaluates.preTokens (z := z) pre f
    obtain ⟨inner, hinner, -, hval⟩ := sum s
    have hpost := Evaluates.constTokens (z := z) post g inner.value
    rw [hfactor (inner.value * _), ← mul_assoc] at hpost
    have hall := hg.append ((paren hinner).append hpost)
    simpa [Term.tokens, Term.eval, hval] using hall

/-- A sum is read in a frame of its own. -/
theorem sum : (s : Sum ν) →
    ∃ g, Evaluates z s.tokens .init g ∧ g.seen = true ∧ g.value = s.eval z
  | .first none t => ⟨_, term t .init, rfl, by simp [ValueFrame.init, Sum.eval]⟩
  | .first (some sgn) t =>
    ⟨_, (sign sgn .init (.inr rfl)).append (term t _), rfl, by
      obtain ⟨afterPlus, neg⟩ := sgn
      cases neg <;> simp [Sum.eval, Sign.apply, show ValueFrame.init.value = (0 : R) from rfl]⟩
  | .snoc s sep t => by
    obtain ⟨g, hg, hseen, hval⟩ := sum s
    refine ⟨_, (hg.append (sign sep g (.inl hseen))).append (term t _), rfl, ?_⟩
    obtain ⟨afterPlus, neg⟩ := sep
    cases neg <;> simp [hval, Sum.eval, Sign.apply]
end

theorem poly (p : Poly ν) : ∃ g, Evaluates z p.tokens .init g ∧ g.value = p.eval z := by
  cases p with
  | none => exact ⟨_, nil, rfl⟩
  | some s =>
    obtain ⟨g, hg, -, hval⟩ := sum (z := z) s
    exact ⟨g, hg, hval⟩

end Evaluates

/-- The value of the text of a basic constraint is the value of the constraint. -/
theorem Line.textValue_tokens (z : ν → R) (l : Line ν) :
    textValue z (l.tokens.map Token.symbol) = some (l.eval z) := by
  obtain ⟨a, ha, haval⟩ := Evaluates.poly (z := z) l.a
  obtain ⟨b, hb, hbval⟩ := Evaluates.poly (z := z) l.b
  obtain ⟨c, hc, hcval⟩ := Evaluates.poly (z := z) l.c
  have hab : Evaluates z
      ((.lpar :: (l.a.tokens ++ [.rpar])) ++ .star :: .lpar :: (l.b.tokens ++ [.rpar]))
      .init ((ValueFrame.init.factor a.value).factor b.value) :=
    (Evaluates.paren ha).append (Evaluates.star.cons (Evaluates.paren hb))
  have hplus : Evaluates z [.plus] ((ValueFrame.init.factor a.value).factor b.value)
      ((ValueFrame.init.factor a.value).factor b.value).plus := fun _ => rfl
  have hline := hab.append (hplus.cons (Evaluates.paren hc)) []
  have htokens : l.tokens = (.lpar :: (l.a.tokens ++ [.rpar]) ++ .star :: .lpar ::
      (l.b.tokens ++ [.rpar])) ++ .plus :: .lpar :: (l.c.tokens ++ [.rpar]) := by
    simp [Line.tokens]
  rw [textValue, htokens, hline]
  simp [ValueFrame.plus, ValueFrame.init, ValueFrame.factor_factor, haval, hbval, hcval, Line.eval]

end

end Pequin
