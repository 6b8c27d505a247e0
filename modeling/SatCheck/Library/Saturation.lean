import Mathlib.Data.Set.Insert
/-!
# Saturation by a worklist

Facts accumulate in a growing set and rules derive facts from facts.  A worklist
remembers the facts whose rules still have to be applied: the known facts are then
closed up to the rules with a pending premise.  When nothing is pending the known
facts are closed.
-/

namespace SatCheck.Saturation

variable {F : Type*} {R : Set F → F → Prop} {watched known known' pending pending' : Set F}

/-- Every rule with known premises has a known conclusion. -/
def Closed (R : Set F → F → Prop) (known : Set F) : Prop :=
  ∀ ps c, R ps c → ps ⊆ known → c ∈ known

/-- The same, except for rules with a pending premise. -/
def ClosedUpTo (R : Set F → F → Prop) (known pending : Set F) : Prop :=
  ∀ ps c, R ps c → ps ⊆ known → c ∈ known ∨ ∃ p ∈ ps, p ∈ pending

theorem closedUpTo_empty_iff : ClosedUpTo R known ∅ ↔ Closed R known := by
  simp [ClosedUpTo, Closed]

/-- Nothing is forgotten, and a new watched fact is pending. -/
structure Extends (watched known pending known' pending' : Set F) : Prop where
  knownMono : known ⊆ known'
  pendingMono : pending ⊆ pending'
  announced : ∀ p ∈ watched, p ∈ known' → p ∈ known ∨ p ∈ pending'

/-- The premises of every rule are watched. -/
def Watches (watched : Set F) (R : Set F → F → Prop) : Prop :=
  ∀ ps c, R ps c → ps ⊆ watched

/-- The facts `done` need not stay pending when every rule that they take part in,
with premises known before, is applied. -/
theorem ClosedUpTo.process (done : Set F) (h : ClosedUpTo R known (done ∪ pending))
    (hwatched : Watches watched R) (hext : Extends watched known pending known' pending')
    (hfire : ∀ f ∈ done, ∀ ps c, R ps c → f ∈ ps → ps ⊆ known → c ∈ known') :
    ClosedUpTo R known' pending' := by
  intro ps c hrule hps
  by_cases hold : ps ⊆ known
  · rcases h ps c hrule hold with hc | ⟨p, hp, hdone | hpending⟩
    · exact .inl (hext.knownMono hc)
    · exact .inl (hfire p hdone ps c hrule hp hold)
    · exact .inr ⟨p, hp, hext.pendingMono hpending⟩
  · obtain ⟨p, hp, hpnew⟩ := Set.not_subset.mp hold
    have hannounced := hext.announced p (hwatched ps c hrule hp) (hps hp)
    exact .inr ⟨p, hp, hannounced.resolve_left hpnew⟩

theorem ClosedUpTo.extend (h : ClosedUpTo R known pending) (hwatched : Watches watched R)
    (hext : Extends watched known pending known' pending') : ClosedUpTo R known' pending' :=
  ClosedUpTo.process ∅ (by rwa [Set.empty_union]) hwatched hext (by simp)

/-- New rules may come in when those with known premises are covered. -/
theorem ClosedUpTo.addRules {R' : Set F → F → Prop} (h : ClosedUpTo R known pending)
    (hrules : ∀ ps c, R' ps c → R ps c ∨
      (ps ⊆ known → c ∈ known ∨ ∃ p ∈ ps, p ∈ pending)) :
    ClosedUpTo R' known pending := by
  intro ps c hrule hps
  rcases hrules ps c hrule with hold | hcovered
  · exact h ps c hold hps
  · exact hcovered hps

end SatCheck.Saturation
