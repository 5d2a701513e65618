import Mathlib.Algebra.BigOperators.Group.List.Basic
import Mathlib.Algebra.Ring.Int.Defs
import Mathlib.Data.Int.Cast.Lemmas
import Mathlib.Data.List.Nodup
import Mathlib.Tactic.Ring

/-!
# Constraint generators

A generator hands out numbered wires, writes rows `a * b + c = 0` over them and writes the commands
by which a prover computes the wires. It is a function of the number of the next wire.

Two rules go with it. `Sound` is about every assignment that satisfies the rows, and composes
because the rows of two generators are the rows of both. `Runs` is about the assignment the commands
compute. It composes because a generator's commands change only wires that are not in the rows
before.
-/

namespace Generator

/-- A wire is numbered by the generator, or one of the wires `κ` that are given from outside. -/
inductive Wire (κ : Type) where
  | fresh (n : ℕ)
  | ext (k : κ)
  deriving DecidableEq, Repr

/-- A linear combination. The wire `none` is the constant `1`. -/
abbrev Terms (κ : Type) := List (ℤ × Option (Wire κ))

structure Row (κ : Type) where
  a : Terms κ
  b : Terms κ
  c : Terms κ

section
variable {κ R S : Type} [CommRing R] [CommRing S]

def lin (z : Wire κ → R) (ts : Terms κ) : R := (ts.map fun t => (t.1 : R) * t.2.elim 1 z).sum

@[simp] theorem lin_nil (z : Wire κ → R) : lin z [] = 0 := rfl

@[simp] theorem lin_cons (z : Wire κ → R) (t : ℤ × Option (Wire κ)) (ts : Terms κ) :
    lin z (t :: ts) = (t.1 : R) * t.2.elim 1 z + lin z ts := by simp [lin]

@[simp] theorem lin_append (z : Wire κ → R) (ts ts' : Terms κ) :
    lin z (ts ++ ts') = lin z ts + lin z ts' := by simp [lin]

def Row.eval (z : Wire κ → R) (r : Row κ) : R := lin z r.a * lin z r.b + lin z r.c

theorem lin_map (φ : R →+* S) (z : Wire κ → R) (ts : Terms κ) :
    lin (fun w => φ (z w)) ts = φ (lin z ts) := by
  induction ts with
  | nil => simp
  | cons t ts ih =>
    obtain ⟨c, w⟩ := t
    cases w <;> simp [ih]

/-- A row that holds over the integers holds over every ring. -/
theorem Row.eval_map (φ : R →+* S) (z : Wire κ → R) (r : Row κ) :
    r.eval (fun w => φ (z w)) = φ (r.eval z) := by simp [Row.eval, lin_map]

end

/-! ## Generators -/

/-- What a generator returns: a value, its rows and commands, and the number of the next wire. -/
structure Emit (κ γ α : Type) where
  val : α
  rows : List (Row κ)
  cmds : List γ
  next : ℕ

def Gen (κ γ α : Type) : Type := ℕ → Emit κ γ α

variable {κ γ α β : Type}

instance : Monad (Gen κ γ) where
  pure a := fun n => ⟨a, [], [], n⟩
  bind g f := fun n =>
    let e := g n
    let e' := f e.val e.next
    ⟨e'.val, e.rows ++ e'.rows, e.cmds ++ e'.cmds, e'.next⟩

namespace Gen

def fresh : Gen κ γ (Wire κ) := fun n => ⟨.fresh n, [], [], n + 1⟩

def row (r : Row κ) : Gen κ γ Unit := fun n => ⟨(), [r], [], n⟩

def cmd (c : γ) : Gen κ γ Unit := fun n => ⟨(), [], [c], n⟩

/-- One generator for each element, from left to right. -/
def each (f : α → Gen κ γ β) : List α → Gen κ γ (List β)
  | [] => pure []
  | a :: as => do
    let b ← f a
    let bs ← each f as
    pure (b :: bs)

section
variable (g : Gen κ γ α) (f : α → Gen κ γ β) (n : ℕ)

@[simp] theorem pure_apply (a : α) : (pure a : Gen κ γ α) n = ⟨a, [], [], n⟩ := rfl

theorem bind_apply : (g >>= f) n = ⟨(f (g n).val (g n).next).val,
    (g n).rows ++ (f (g n).val (g n).next).rows, (g n).cmds ++ (f (g n).val (g n).next).cmds,
    (f (g n).val (g n).next).next⟩ := rfl

end

end Gen

/-- `k` numbered wires from number `y` on. -/
def block (y k : ℕ) : List (Wire κ) := (List.range k).map fun i => .fresh (y + i)

@[simp] theorem block_zero (y : ℕ) : (block y 0 : List (Wire κ)) = [] := rfl

theorem block_succ (y k : ℕ) : (block y (k + 1) : List (Wire κ)) = .fresh y :: block (y + 1) k := by
  simp only [block, List.range_succ_eq_map, List.map_cons, List.map_map, Nat.add_zero]
  congr 1
  refine List.map_congr_left fun i _ => congrArg Wire.fresh ?_
  simp only [Nat.succ_eq_add_one]
  omega

@[simp] theorem length_block (y k : ℕ) : (block y k : List (Wire κ)).length = k := by simp [block]

theorem mem_block {y k : ℕ} {w : Wire κ} :
    w ∈ block y k ↔ ∃ i, w = .fresh i ∧ y ≤ i ∧ i < y + k := by
  simp only [block, List.mem_map, List.mem_range]
  constructor
  · rintro ⟨i, hi, rfl⟩
    exact ⟨y + i, rfl, by omega, by omega⟩
  · rintro ⟨i, rfl, h1, h2⟩
    exact ⟨i - y, by omega, congrArg Wire.fresh (by omega)⟩

theorem nodup_block (y k : ℕ) : (block y k : List (Wire κ)).Nodup :=
  List.Nodup.map (fun i j h => by simpa using h) List.nodup_range

/-- A loop that only makes wires, each with one row. -/
theorem Gen.each_fresh_row (mk : α → Wire κ → Row κ) (l : List α) (n : ℕ) :
    Gen.each (fun a => (do
      let w ← Gen.fresh
      Gen.row (mk a w)
      pure w : Gen κ γ (Wire κ))) l n = ⟨block n l.length,
        (l.zip (block n l.length)).map fun p => mk p.1 p.2, [], n + l.length⟩ := by
  induction l generalizing n with
  | nil => rfl
  | cons a l ih =>
    have hstep : (do
        let w ← Gen.fresh
        Gen.row (mk a w)
        pure w : Gen κ γ (Wire κ)) n = ⟨.fresh n, [mk a (.fresh n)], [], n + 1⟩ := rfl
    rw [Gen.each, Gen.bind_apply, hstep, Gen.bind_apply, ih]
    simp only [Gen.pure_apply, List.append_nil, List.length_cons, block_succ, List.zip_cons_cons,
      List.map_cons, List.singleton_append, Emit.mk.injEq, true_and]
    omega

theorem Gen.each_fresh (l : List α) (n : ℕ) :
    Gen.each (fun _ => (Gen.fresh : Gen κ γ (Wire κ))) l n =
      ⟨block n l.length, [], [], n + l.length⟩ := by
  induction l generalizing n with
  | nil => rfl
  | cons a l ih =>
    rw [Gen.each, Gen.bind_apply, Gen.bind_apply, Gen.fresh, ih]
    simp only [Gen.pure_apply, List.append_nil, List.length_cons, block_succ,
      Emit.mk.injEq, true_and]
    omega

/-! ## Every satisfying assignment -/

section
variable {R : Type} [CommRing R] (z : Wire κ → R)

def RowsHold (rows : List (Row κ)) : Prop := ∀ r ∈ rows, r.eval z = 0

@[simp] theorem rowsHold_nil : RowsHold z [] := by simp [RowsHold]

@[simp] theorem rowsHold_cons {r : Row κ} {rows : List (Row κ)} :
    RowsHold z (r :: rows) ↔ r.eval z = 0 ∧ RowsHold z rows := by simp [RowsHold]

@[simp] theorem rowsHold_append {rows rows' : List (Row κ)} :
    RowsHold z (rows ++ rows') ↔ RowsHold z rows ∧ RowsHold z rows' := by
  simp [RowsHold, or_imp, forall_and]

/-- Whenever the rows hold, the value satisfies `Q`. -/
def Sound (g : Gen κ γ α) (Q : α → Prop) : Prop := ∀ n, RowsHold z (g n).rows → Q (g n).val

variable {z}

theorem Sound.pure {a : α} {Q : α → Prop} (h : Q a) :
    Sound z (Pure.pure a : Gen κ γ α) Q := fun _ _ => h

theorem Sound.bind {g : Gen κ γ α} {f : α → Gen κ γ β} {P : α → Prop} {Q : β → Prop}
    (hg : Sound z g P) (hf : ∀ a, P a → Sound z (f a) Q) : Sound z (g >>= f) Q := by
  intro n h
  obtain ⟨h1, h2⟩ := (rowsHold_append z).1 h
  exact hf _ (hg n h1) _ h2

theorem Sound.mono {g : Gen κ γ α} {P Q : α → Prop} (hg : Sound z g P) (h : ∀ a, P a → Q a) :
    Sound z g Q := fun n hn => h _ (hg n hn)

theorem Sound.row (r : Row κ) : Sound z (Gen.row r : Gen κ γ Unit) fun _ => r.eval z = 0 :=
  fun _ h => h r (List.mem_singleton_self r)

theorem Sound.trivial (g : Gen κ γ α) : Sound z g fun _ => True := fun _ _ => True.intro

theorem Sound.each {f : α → Gen κ γ β} {P : α → β → Prop} (l : List α)
    (hf : ∀ a ∈ l, Sound z (f a) (P a)) : Sound z (Gen.each f l) (List.Forall₂ P l) := by
  induction l with
  | nil => exact .pure .nil
  | cons a as ih =>
    refine .bind (hf a List.mem_cons_self) fun b hb => ?_
    refine .bind (ih fun a' ha' => hf a' (List.mem_cons_of_mem a ha')) fun bs hbs => ?_
    exact .pure (.cons hb hbs)

end

/-! ## The assignment the commands compute -/

/-- A wire that is given from outside or has a number below `n`. -/
def Wire.Below (n : ℕ) : Wire κ → Prop
  | .fresh k => k < n
  | .ext _ => True

@[simp] theorem Wire.below_fresh {n k : ℕ} : (Wire.fresh k : Wire κ).Below n ↔ k < n := Iff.rfl

@[simp] theorem Wire.below_ext {n : ℕ} {k : κ} : (Wire.ext k).Below n := True.intro

theorem Wire.Below.mono {n m : ℕ} {w : Wire κ} (h : w.Below n) (hm : n ≤ m) : w.Below m := by
  cases w with
  | fresh k => exact lt_of_lt_of_le h hm
  | ext k => exact True.intro

def TermsBelow (n : ℕ) (ts : Terms κ) : Prop := ∀ t ∈ ts, ∀ w ∈ t.2, w.Below n

structure Row.Below (n : ℕ) (r : Row κ) : Prop where
  a : TermsBelow n r.a
  b : TermsBelow n r.b
  c : TermsBelow n r.c

theorem TermsBelow.mono {n m : ℕ} {ts : Terms κ} (h : TermsBelow n ts) (hm : n ≤ m) :
    TermsBelow m ts := fun t ht w hw => (h t ht w hw).mono hm

theorem Row.Below.mono {n m : ℕ} {r : Row κ} (h : r.Below n) (hm : n ≤ m) : r.Below m :=
  ⟨h.a.mono hm, h.b.mono hm, h.c.mono hm⟩

/-- Two assignments that agree on the wires given from outside and on those below `n`. -/
def Agree {R : Type} (n : ℕ) (s s' : Wire κ → R) : Prop := ∀ w : Wire κ, w.Below n → s' w = s w

section
variable {R : Type} {n m : ℕ} {s s' s'' : Wire κ → R}

theorem Agree.refl : Agree n s s := fun _ _ => rfl

theorem Agree.trans (h : Agree n s s') (h' : Agree m s' s'') (hm : n ≤ m) : Agree n s s'' :=
  fun w hw => (h' w (hw.mono hm)).trans (h w hw)

theorem Agree.map_eq (h : Agree n s s') {ws : List (Wire κ)} (hws : ∀ w ∈ ws, w.Below n) :
    ws.map s' = ws.map s := List.map_congr_left fun w hw => h w (hws w hw)

theorem Agree.lin_eq [CommRing R] (h : Agree n s s') {ts : Terms κ} (hts : TermsBelow n ts) :
    lin s' ts = lin s ts := by
  induction ts with
  | nil => rfl
  | cons t ts ih =>
    obtain ⟨c, w⟩ := t
    have hw := hts (c, w) List.mem_cons_self
    rw [lin_cons, lin_cons, ih fun t' ht' => hts t' (List.mem_cons_of_mem _ ht')]
    cases w with
    | none => rfl
    | some w => rw [Option.elim_some, Option.elim_some, h w (hw w rfl)]

theorem Agree.eval_eq [CommRing R] (h : Agree n s s') {r : Row κ} (hr : r.Below n) :
    r.eval s' = r.eval s := by
  rw [Row.eval, Row.eval, h.lin_eq hr.a, h.lin_eq hr.b, h.lin_eq hr.c]

end

/-! ## Writing lists -/

section
variable {ν : Type} [DecidableEq ν]

/-- The values are written one after the other: of two writes to one place the last one stays. -/
def writeAll (ws : List ν) (vs : List ℤ) (s : ν → ℤ) : ν → ℤ :=
  (ws.zip vs).foldl (fun s p => Function.update s p.1 p.2) s

@[simp] theorem writeAll_nil (vs : List ℤ) (s : ν → ℤ) : writeAll [] vs s = s := rfl

@[simp] theorem writeAll_cons (w : ν) (ws : List ν) (v : ℤ) (vs : List ℤ) (s : ν → ℤ) :
    writeAll (w :: ws) (v :: vs) s = writeAll ws vs (Function.update s w v) := rfl

theorem writeAll_of_notMem {ws : List ν} {w : ν} (h : w ∉ ws) (vs : List ℤ) (s : ν → ℤ) :
    writeAll ws vs s w = s w := by
  induction ws generalizing vs s with
  | nil => rfl
  | cons w' ws ih =>
    rw [List.mem_cons, not_or] at h
    cases vs with
    | nil => rfl
    | cons v vs => rw [writeAll_cons, ih h.2, Function.update_of_ne h.1]

theorem map_writeAll {ws : List ν} (h : ws.Nodup) {vs : List ℤ} (hlen : ws.length = vs.length)
    (s : ν → ℤ) : ws.map (writeAll ws vs s) = vs := by
  induction ws generalizing vs s with
  | nil => simpa using hlen.symm
  | cons w ws ih =>
    obtain ⟨hw, hws⟩ := List.nodup_cons.1 h
    cases vs with
    | nil => cases hlen
    | cons v vs =>
      rw [List.map_cons, writeAll_cons, ih hws (by simpa using hlen), writeAll_of_notMem hw,
        Function.update_self]

/-- Writing the values that are there already. -/
theorem writeAll_self (ws : List ν) (s : ν → ℤ) : writeAll ws (ws.map s) s = s := by
  induction ws with
  | nil => rfl
  | cons w ws ih => rw [List.map_cons, writeAll_cons, Function.update_eq_self, ih]

end

/-! ## Running commands -/

/-- What the commands do. -/
structure Machine (κ γ : Type) where
  step : γ → (Wire κ → ℤ) → Wire κ → ℤ

section
variable (M : Machine κ γ)

def Machine.run (cmds : List γ) (s : Wire κ → ℤ) : Wire κ → ℤ :=
    cmds.foldl (fun s c => M.step c s) s

@[simp] theorem Machine.run_nil (s : Wire κ → ℤ) : M.run [] s = s := rfl

@[simp] theorem Machine.run_cons (c : γ) (cmds : List γ) (s : Wire κ → ℤ) :
    M.run (c :: cmds) s = M.run cmds (M.step c s) := rfl

@[simp] theorem Machine.run_append (cmds cmds' : List γ) (s : Wire κ → ℤ) :
    M.run (cmds ++ cmds') s = M.run cmds' (M.run cmds s) := by simp [Machine.run]

/-- From the assignment `s` the commands change only new wires, they make the rows true, and in the
end `Q` holds of the value, the number of the next wire and the assignment. -/
structure Runs (g : Gen κ γ α) (n : ℕ) (s : Wire κ → ℤ) (Q : α → ℕ → (Wire κ → ℤ) → Prop) :
    Prop where
  le : n ≤ (g n).next
  below : ∀ r ∈ (g n).rows, r.Below (g n).next
  agree : Agree n s (M.run (g n).cmds s)
  rows : RowsHold (M.run (g n).cmds s) (g n).rows
  post : Q (g n).val (g n).next (M.run (g n).cmds s)

variable {M} {g : Gen κ γ α} {f : α → Gen κ γ β} {n : ℕ} {s : Wire κ → ℤ}

theorem Runs.mono {P Q : α → ℕ → (Wire κ → ℤ) → Prop} (h : Runs M g n s P)
    (hPQ : ∀ a m s', n ≤ m → Agree n s s' → P a m s' → Q a m s') : Runs M g n s Q :=
  ⟨h.le, h.below, h.agree, h.rows, hPQ _ _ _ h.le h.agree h.post⟩

theorem Runs.pure {a : α} {Q : α → ℕ → (Wire κ → ℤ) → Prop} (h : Q a n s) :
    Runs M (Pure.pure a : Gen κ γ α) n s Q :=
  ⟨le_rfl, by simp, .refl, by simp, h⟩

/-- A command that changes nothing. -/
theorem Runs.cmd {c : γ} {Q : Unit → ℕ → (Wire κ → ℤ) → Prop} (hc : M.step c s = s) (h : Q () n s) :
    Runs M (Gen.cmd c : Gen κ γ Unit) n s Q := by
  have hrun : M.run (Gen.cmd c n : Emit κ γ Unit).cmds s = s := hc
  exact ⟨le_rfl, by simp [Gen.cmd], hrun.symm ▸ .refl, by simp [Gen.cmd], hrun.symm ▸ h⟩

/-- A row over wires that are there already. -/
theorem Runs.row {r : Row κ} {Q : Unit → ℕ → (Wire κ → ℤ) → Prop} (hr : r.Below n)
    (heval : r.eval s = 0) (h : Q () n s) : Runs M (Gen.row r : Gen κ γ Unit) n s Q :=
  ⟨le_rfl, by simpa [Gen.row] using hr, .refl, by simpa [Gen.row] using heval, h⟩

theorem Runs.bind {P : α → ℕ → (Wire κ → ℤ) → Prop} {Q : β → ℕ → (Wire κ → ℤ) → Prop}
    (hg : Runs M g n s P) (hf : ∀ a m s', n ≤ m → Agree n s s' → P a m s' → Runs M (f a) m s' Q) :
    Runs M (g >>= f) n s Q := by
  have h := hf _ _ _ hg.le hg.agree hg.post
  refine ⟨hg.le.trans h.le, ?_, ?_, ?_, ?_⟩
  · intro r hr
    rcases List.mem_append.1 hr with hr | hr
    · exact (hg.below r hr).mono h.le
    · exact h.below r hr
  · rw [Gen.bind_apply, Machine.run_append]
    exact hg.agree.trans h.agree hg.le
  · rw [Gen.bind_apply, Machine.run_append, rowsHold_append]
    -- the second generator's commands do not change the wires of the first one's rows
    exact ⟨fun r hr => (h.agree.eval_eq (hg.below r hr)).trans (hg.rows r hr), h.rows⟩
  · rw [Gen.bind_apply, Machine.run_append]
    exact h.post

/-- A loop whose results hold wires, with values known in advance. -/
theorem Runs.each {f : α → Gen κ γ β} (out : β → List (Wire κ)) {φ : α → List ℤ} (l : List α)
    (hf : ∀ a ∈ l, ∀ m s', n ≤ m → Agree n s s' →
      Runs M (f a) m s' fun b m' s'' => (∀ w ∈ out b, w.Below m') ∧ (out b).map s'' = φ a) :
    Runs M (Gen.each f l) n s fun bs m s' =>
      (∀ b ∈ bs, ∀ w ∈ out b, w.Below m) ∧ bs.map (fun b => (out b).map s') = l.map φ := by
  induction l generalizing n s with
  | nil => exact .pure ⟨by simp, rfl⟩
  | cons a as ih =>
    refine .bind (hf a List.mem_cons_self n s le_rfl .refl) fun b m s' hm hs' hb => ?_
    refine .bind (ih fun a' ha' m' s'' hm' hs'' => hf a' (List.mem_cons_of_mem a ha') m' s''
      (hm.trans hm') (hs'.trans hs'' hm)) fun bs m' s'' hm' hs'' hbs => ?_
    refine .pure ⟨?_, ?_⟩
    · simpa using ⟨fun w hw => (hb.1 w hw).mono hm', hbs.1⟩
    · rw [List.map_cons, List.map_cons, hs''.map_eq hb.1, hb.2, hbs.2]

theorem Runs.each_wire {f : α → Gen κ γ (Wire κ)} {φ : α → ℤ} (l : List α)
    (hf : ∀ a ∈ l, ∀ m s', n ≤ m → Agree n s s' →
      Runs M (f a) m s' fun w m' s'' => w.Below m' ∧ s'' w = φ a) :
    Runs M (Gen.each f l) n s fun ws m s' => (∀ w ∈ ws, w.Below m) ∧ ws.map s' = l.map φ := by
  refine (Runs.each (fun w => [w]) (φ := fun a => [φ a]) l fun a ha m s' hm hs' => ?_).mono
    fun ws m s' _ _ h => ?_
  · exact (hf a ha m s' hm hs').mono fun w m' s'' _ _ h => by simpa using h
  · refine ⟨fun w hw => h.1 w hw w (List.mem_singleton_self w), ?_⟩
    have hmap := congrArg List.flatten h.2
    simpa [List.flatten_eq_flatMap, List.flatMap_map, ← List.map_eq_flatMap] using hmap

end

end Generator
