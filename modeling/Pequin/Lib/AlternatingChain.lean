import Mathlib.Data.Fintype.Defs
import Mathlib.Data.Finset.Card

/-!
# Two-colouring two matchings along alternating chains

Two partial matchings `m₁` and `m₂` of one set of points are coloured with two colours so that
points matched by either have different colours. A chain starts at some point and follows the
matchings in turn, so that the colour of the next point is forced. It ends at its debt, the one
other point whose colour is already forced; then the points coloured so far are closed under both
matchings.
-/

namespace AlternatingChain

variable {P : Type} {m m₁ m₂ : P → Option P} {c : P → Option Bool} {x y z d e : P}
  {a b σ far : Bool}

/-- A partial matching: some points are in pairs. -/
structure Matching (m : P → Option P) : Prop where
  symm : ∀ {x y}, m x = some y → m y = some x
  irrefl : ∀ {x y}, m x = some y → x ≠ y

def Proper (m : P → Option P) (c : P → Option Bool) : Prop :=
  ∀ ⦃x y a b⦄, m x = some y → c x = some a → c y = some b → b = !a

/-- The colour of `d` is forced by `m`: it is matched to a point of colour `a`, or not matched. -/
def Owes (m : P → Option P) (c : P → Option Bool) (d : P) (a : Bool) : Prop :=
  m d = none ∨ ∃ y, m d = some y ∧ c y = some a

/-- A chain that has reached `x` through `m₁` from a point of colour `σ`, and ends at `d`. It is
`far` if the colour of `d` is forced by `m₂`. -/
structure Chain (m₁ m₂ : P → Option P) (c : P → Option Bool) (σ : Bool) (x d : P) (far : Bool) :
    Prop where
  reached : c x = none
  arrived : ∃ y, m₁ x = some y ∧ c y = some σ
  debt : c d = none
  owes : if far then Owes m₂ c d σ else Owes m₁ c d (!σ)
  pending₁ : ∀ {z y a}, c z = none → m₁ z = some y → c y = some a → z = x ∨ z = d
  pending₂ : ∀ {z y a}, c z = none → m₂ z = some y → c y = some a → z = d
  free : ∀ {z}, c z = none → m₁ z = none ∨ m₂ z = none → z = d
  proper₁ : Proper m₁ c
  proper₂ : Proper m₂ c

/-- The coloured points are closed under both matchings, and the others are all matched. -/
structure Closed (m₁ m₂ : P → Option P) (c : P → Option Bool) : Prop where
  pending₁ : ∀ {z y}, c z = none → m₁ z = some y → c y = none
  pending₂ : ∀ {z y}, c z = none → m₂ z = some y → c y = none
  matched : ∀ {z}, c z = none → m₁ z ≠ none ∧ m₂ z ≠ none
  proper₁ : Proper m₁ c
  proper₂ : Proper m₂ c

theorem Closed.symm (h : Closed m₁ m₂ c) : Closed m₂ m₁ c :=
  ⟨h.pending₂, h.pending₁, fun hz => (h.matched hz).symm, h.proper₂, h.proper₁⟩

theorem Closed.coloured (h : Closed m₁ m₂ c) (M₂ : Matching m₂) (hx : c x ≠ none)
    (hxy : m₂ x = some y) : c y ≠ none := fun hy => hx (h.pending₂ hy (M₂.symm hxy))

variable [DecidableEq P]

def paint (c : P → Option Bool) (x : P) (a : Bool) : P → Option Bool := Function.update c x (some a)

@[simp] theorem paint_self : paint c x a x = some a := Function.update_self ..

theorem paint_ne_none : paint c x a x ≠ none := by simp

theorem paint_of_ne (h : z ≠ x) : paint c x a z = c z := Function.update_of_ne h ..

/-- Colours stay. -/
theorem paint_keeps (hx : c x = none) (hz : c z = some b) : paint c x a z = some b := by
  rw [paint_of_ne, hz]
  rintro rfl
  cases hx.symm.trans hz

theorem paint_eq_none : paint c x a z = none ↔ z ≠ x ∧ c z = none := by
  by_cases h : z = x
  · simp [h]
  · simp [paint_of_ne h, h]

theorem paint_eq_some : paint c x a z = some b ↔ z = x ∧ b = a ∨ z ≠ x ∧ c z = some b := by
  by_cases h : z = x
  · simp [h, eq_comm]
  · simp [paint_of_ne h, h]

def uncoloured [Fintype P] (c : P → Option Bool) : Finset P :=
    Finset.univ.filter fun x => c x = none

theorem card_uncoloured_paint [Fintype P] (hx : c x = none) :
    (uncoloured (paint c x a)).card + 1 = (uncoloured c).card := by
  have herase : uncoloured (paint c x a) = (uncoloured c).erase x := by
    ext z
    simp [uncoloured, paint_eq_none]
  rw [herase]
  exact Finset.card_erase_add_one (Finset.mem_filter.mpr ⟨Finset.mem_univ x, hx⟩)

theorem Proper.paint (M : Matching m) (h : Proper m c)
    (hx : ∀ {y b}, m x = some y → c y = some b → b = !a) : Proper m (paint c x a) := by
  intro z y b b' hzy hz hy
  rcases paint_eq_some.mp hz with ⟨rfl, rfl⟩ | ⟨-, hz'⟩
  · rcases paint_eq_some.mp hy with ⟨rfl, -⟩ | ⟨-, hy⟩
    · exact absurd rfl (M.irrefl hzy)
    · exact hx hzy hy
  · rcases paint_eq_some.mp hy with ⟨rfl, rfl⟩ | ⟨-, hy'⟩
    · rw [hx (M.symm hzy) hz', Bool.not_not]
    · exact h hzy hz' hy'

theorem proper_paint_none (M : Matching m) :
    Proper m (AlternatingChain.paint (fun _ => none) x a) :=
  Proper.paint M (fun _ _ _ _ _ hz => by cases hz) fun _ hy => by cases hy

theorem Owes.paint (h : Owes m c d a) (hx : c x = none) : Owes m (paint c x b) d a :=
  h.imp_right fun ⟨y, hdy, hy⟩ => ⟨y, hdy, paint_keeps hx hy⟩

namespace Chain

omit [DecidableEq P] in
/-- A chain whose debt is forced by `m₁` has not reached it. -/
theorem ne_of_near (h : Chain m₁ m₂ c σ x d false) : x ≠ d := by
  rintro rfl
  obtain ⟨y, hxy, hy⟩ := h.arrived
  rcases h.owes with hnone | ⟨y', hxy', hy'⟩
  · cases hnone.symm.trans hxy
  · cases hxy.symm.trans hxy'
    have hσ : σ = !σ := Option.some.inj (hy.symm.trans hy')
    cases σ <;> cases hσ

/-- The colour of the point that is reached is right for both matchings. -/
theorem proper_paint (h : Chain m₁ m₂ c σ x d far) (M₁ : Matching m₁) (M₂ : Matching m₂) :
    Proper m₁ (paint c x !σ) ∧ Proper m₂ (paint c x !σ) := by
  obtain ⟨y, hxy, hy⟩ := h.arrived
  refine ⟨h.proper₁.paint M₁ fun hxz hz => ?_, h.proper₂.paint M₂ fun hxz hz => ?_⟩
  · cases hxy.symm.trans hxz
    cases hy.symm.trans hz
    rw [Bool.not_not]
  · obtain rfl := h.pending₂ h.reached hxz hz
    cases far with
    | false => exact absurd rfl h.ne_of_near
    | true =>
      rcases h.owes with hnone | ⟨y', hxy', hy'⟩
      · cases hnone.symm.trans hxz
      · cases hxz.symm.trans hxy'
        cases hz.symm.trans hy'
        rw [Bool.not_not]

omit [DecidableEq P] in
/-- Before its end, the chain goes on through the other matching. -/
theorem next (h : Chain m₁ m₂ c σ x d far) (hne : x ≠ d) : ∃ e, m₂ x = some e ∧ c e = none := by
  cases he : m₂ x with
  | none => exact absurd (h.free h.reached (.inr he)) hne
  | some e =>
    refine ⟨e, rfl, ?_⟩
    cases hce : c e with
    | none => rfl
    | some a => exact absurd (h.pending₂ h.reached he hce) hne

theorem step (h : Chain m₁ m₂ c σ x d far) (M₁ : Matching m₁) (M₂ : Matching m₂) (hne : x ≠ d)
    (he : m₂ x = some e) (hce : c e = none) : Chain m₂ m₁ (paint c x !σ) (!σ) e d (!far) := by
  obtain ⟨y, hxy, hy⟩ := h.arrived
  obtain ⟨hp₁, hp₂⟩ := h.proper_paint M₁ M₂
  refine ⟨?_, ?_, ?_, ?_, ?_, ?_, ?_, hp₂, hp₁⟩
  · exact paint_eq_none.mpr ⟨(M₂.irrefl he).symm, hce⟩
  · exact ⟨x, M₂.symm he, paint_self⟩
  · exact paint_eq_none.mpr ⟨hne.symm, h.debt⟩
  · have howes := h.owes
    cases far with
    | false => exact Owes.paint howes h.reached
    | true =>
      have howes : Owes m₂ c d (!!σ) := by rwa [Bool.not_not]
      exact Owes.paint howes h.reached
  · intro z w a hz hzw hw
    obtain ⟨-, hz⟩ := paint_eq_none.mp hz
    rcases paint_eq_some.mp hw with ⟨rfl, -⟩ | ⟨-, hw⟩
    · exact .inl (Option.some.inj ((M₂.symm hzw).symm.trans he))
    · exact .inr (h.pending₂ hz hzw hw)
  · intro z w a hz hzw hw
    obtain ⟨hzx, hz'⟩ := paint_eq_none.mp hz
    rcases paint_eq_some.mp hw with ⟨rfl, -⟩ | ⟨-, hw⟩
    · obtain rfl := Option.some.inj ((M₁.symm hzw).symm.trans hxy)
      cases hz'.symm.trans hy
    · exact (h.pending₁ hz' hzw hw).resolve_left hzx
  · intro z hz hfree
    exact h.free (paint_eq_none.mp hz).2 hfree.symm

/-- At its end, the chain closes. -/
theorem close (h : Chain m₁ m₂ c σ x x far) (M₁ : Matching m₁) (M₂ : Matching m₂) :
    Closed m₁ m₂ (paint c x !σ) := by
  obtain ⟨y, hxy, hy⟩ := h.arrived
  obtain ⟨hp₁, hp₂⟩ := h.proper_paint M₁ M₂
  have huncoloured : ∀ {z}, paint c x (!σ) z = none → z ≠ x ∧ c z = none := paint_eq_none.mp
  refine ⟨?_, ?_, ?_, hp₁, hp₂⟩
  · intro z w hz hzw
    obtain ⟨hzx, hz'⟩ := huncoloured hz
    refine paint_eq_none.mpr ⟨?_, ?_⟩
    · rintro rfl
      obtain rfl := Option.some.inj ((M₁.symm hzw).symm.trans hxy)
      cases hz'.symm.trans hy
    · cases hw : c w with
      | none => rfl
      | some a => exact absurd ((h.pending₁ hz' hzw hw).elim id id) hzx
  · intro z w hz hzw
    obtain ⟨hzx, hz'⟩ := huncoloured hz
    refine paint_eq_none.mpr ⟨?_, ?_⟩
    · rintro rfl
      -- the match of the debt has its colour
      cases far with
      | false => exact absurd rfl h.ne_of_near
      | true =>
        rcases h.owes with hnone | ⟨v, hwv, hv⟩
        · cases hnone.symm.trans (M₂.symm hzw)
        · obtain rfl := Option.some.inj ((M₂.symm hzw).symm.trans hwv)
          cases hz'.symm.trans hv
    · cases hw : c w with
      | none => rfl
      | some a => exact absurd (h.pending₂ hz' hzw hw) hzx
  · intro z hz
    obtain ⟨hzx, hz⟩ := huncoloured hz
    exact ⟨fun hnone => hzx (h.free hz (.inl hnone)), fun hnone => hzx (h.free hz (.inr hnone))⟩

end Chain

/-- A new chain starts at any point without a colour, with any colour; its debt is the match of that
point. -/
theorem Closed.start (h : Closed m₁ m₂ c) (M₁ : Matching m₁) (M₂ : Matching m₂) (hx : c x = none)
    (a : Bool) (hd : m₁ x = some d) (he : m₂ x = some e) :
      Chain m₂ m₁ (paint c x a) a e d true := by
  have hcd := h.pending₁ hx hd
  have hce := h.pending₂ hx he
  have hnone : ∀ {m : P → Option P} {y b}, m x = some y → (m x = some y → c y = none) →
      c y = some b → b = !a := fun hy hpending hb => by cases (hpending hy).symm.trans hb
  refine ⟨?_, ⟨x, M₂.symm he, paint_self⟩, ?_, .inr ⟨x, M₁.symm hd, paint_self⟩, ?_, ?_, ?_, ?_, ?_⟩
  · exact paint_eq_none.mpr ⟨(M₂.irrefl he).symm, hce⟩
  · exact paint_eq_none.mpr ⟨(M₁.irrefl hd).symm, hcd⟩
  · intro z w b hz hzw hw
    obtain ⟨-, hz⟩ := paint_eq_none.mp hz
    rcases paint_eq_some.mp hw with ⟨rfl, -⟩ | ⟨-, hw⟩
    · exact .inl (Option.some.inj ((M₂.symm hzw).symm.trans he))
    · cases (h.pending₂ hz hzw).symm.trans hw
  · intro z w b hz hzw hw
    obtain ⟨-, hz⟩ := paint_eq_none.mp hz
    rcases paint_eq_some.mp hw with ⟨rfl, -⟩ | ⟨-, hw⟩
    · exact Option.some.inj ((M₁.symm hzw).symm.trans hd)
    · cases (h.pending₁ hz hzw).symm.trans hw
  · intro z hz hfree
    obtain ⟨h₁, h₂⟩ := h.matched (paint_eq_none.mp hz).2
    exact (hfree.elim h₂ h₁).elim
  · exact h.proper₂.paint M₂ fun hy hb => hnone hy (h.pending₂ hx) hb
  · exact h.proper₁.paint M₁ fun hy hb => hnone hy (h.pending₁ hx) hb

/-- The first chain when one point is not matched by `m₂` and one is not matched by `m₁`: it starts
at the first and ends at the second. -/
theorem Chain.first (M₁ : Matching m₁) (M₂ : Matching m₂) (hx : ∀ z, m₂ z = none ↔ z = x)
    (hd : ∀ z, m₁ z = none ↔ z = d) (hne : x ≠ d) (a : Bool) (he : m₁ x = some e) :
    Chain m₁ m₂ (paint (fun _ => none) x a) a e d false := by
  have hpainted : ∀ {y b}, paint (fun _ => none) x a y = some b → y = x := fun hy =>
    (paint_eq_some.mp hy).elim And.left fun h => by cases h.2
  refine ⟨?_, ⟨x, M₁.symm he, paint_self⟩, ?_, .inl ((hd d).mpr rfl), ?_, ?_, ?_, proper_paint_none
    M₁, proper_paint_none M₂⟩
  · exact paint_eq_none.mpr ⟨(M₁.irrefl he).symm, rfl⟩
  · exact paint_eq_none.mpr ⟨hne.symm, rfl⟩
  · intro z w b _ hzw hw
    obtain rfl := hpainted hw
    exact .inl (Option.some.inj ((M₁.symm hzw).symm.trans he))
  · intro z w b _ hzw hw
    obtain rfl := hpainted hw
    cases ((hx w).mpr rfl).symm.trans (M₂.symm hzw)
  · intro z hz hfree
    obtain ⟨hzx, -⟩ := paint_eq_none.mp hz
    exact hfree.elim (hd z).mp fun h => absurd ((hx z).mp h) hzx

/-- If these two points are the same, the first chain is this point. -/
theorem Closed.first (M₁ : Matching m₁) (M₂ : Matching m₂) (hx : ∀ z, m₂ z = none ↔ z = x)
    (hd : ∀ z, m₁ z = none ↔ z = x) (a : Bool) : Closed m₁ m₂ (paint (fun _ => none) x a) := by
  refine ⟨?_, ?_, ?_, proper_paint_none M₁, proper_paint_none M₂⟩
  · intro z w _ hzw
    refine paint_eq_none.mpr ⟨?_, rfl⟩
    rintro rfl
    cases ((hd w).mpr rfl).symm.trans (M₁.symm hzw)
  · intro z w _ hzw
    refine paint_eq_none.mpr ⟨?_, rfl⟩
    rintro rfl
    cases ((hx w).mpr rfl).symm.trans (M₂.symm hzw)
  · intro z hz
    obtain ⟨hzx, -⟩ := paint_eq_none.mp hz
    exact ⟨fun h => hzx ((hd z).mp h), fun h => hzx ((hx z).mp h)⟩

end AlternatingChain
