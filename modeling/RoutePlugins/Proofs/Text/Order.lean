import Mathlib.Data.List.Lex
import Mathlib.Data.List.Sort
import RoutePlugins.Text.Order

/-!
# The order of texts

Texts are ordered as the lists of the numbers of their code points are, and lists of texts by their
first difference. Both orders are linear, so sorting gives the same texts in the one ascending order
that they have.
-/

namespace RoutePlugins

variable {s t : Text}

namespace CodePoint

theorem code_injective : Function.Injective code := by
  have hvalid (c : Char) : c.toNat < 0xd800 ∨ 0xdfff < c.toNat := c.valid.imp id And.left
  intro p q h
  cases p with
  | char c =>
    cases q with
    | char d => exact congrArg _ (Char.toNat_inj.mp h)
    | half n =>
      have hc := hvalid c
      simp only [code] at h
      omega
  | half n =>
    cases q with
    | char d =>
      have hd := hvalid d
      simp only [code] at h
      omega
    | half m => exact congrArg _ (Fin.ext (Nat.add_left_cancel h))

/-- A code point has a smaller number than another. -/
def Before (p q : CodePoint) : Prop := p.code < q.code

instance : Std.Asymm Before := ⟨fun _ _ => Nat.lt_asymm⟩

instance : Std.Trichotomous Before :=
  ⟨fun _ _ h h' => code_injective (Nat.le_antisymm (Nat.le_of_not_lt h') (Nat.le_of_not_lt h))⟩

end CodePoint

theorem pointsLe_iff {ps qs : List CodePoint} :
    pointsLe ps qs = true ↔ ps = qs ∨ List.Lex CodePoint.Before ps qs := by
  induction ps generalizing qs with
  | nil =>
    cases qs with
    | nil => simp [pointsLe]
    | cons q qs => simp [pointsLe]
  | cons p ps ih =>
    cases qs with
    | nil => simp [pointsLe]
    | cons q qs =>
      simp only [pointsLe, Bool.or_eq_true, decide_eq_true_eq, Bool.and_eq_true, beq_iff_eq, ih,
        List.cons.injEq, List.cons_lex_cons_iff, CodePoint.Before]
      tauto

namespace Text

theorem le_iff : s.le t = true ↔ s = t ∨ List.Lex CodePoint.Before s.points t.points := by
  cases s
  cases t
  rw [le, pointsLe_iff, mk.injEq]

theorem le_antisymm (h : s.le t = true) (h' : t.le s = true) : s = t := by
  obtain heq | hlt := le_iff.mp h
  · exact heq
  · obtain heq | hlt' := le_iff.mp h'
    · exact heq.symm
    · exact absurd hlt' (Std.Asymm.asymm _ _ hlt)

instance : Std.Total fun s t : Text => s.le t = true := by
  refine ⟨fun s t => ?_⟩
  obtain hlt | heq | hlt := trichotomous_of (List.Lex CodePoint.Before) s.points t.points
  · exact .inl (le_iff.mpr (.inr hlt))
  · exact .inl (pointsLe_iff.mpr (.inl heq))
  · exact .inr (le_iff.mpr (.inr hlt))

instance : IsTrans Text fun s t => s.le t = true := by
  refine ⟨fun s t u h h' => ?_⟩
  obtain rfl | hlt := le_iff.mp h
  · exact h'
  · obtain rfl | hlt' := le_iff.mp h'
    · exact h
    · exact le_iff.mpr (.inr (List.lex_trans Nat.lt_trans hlt hlt'))

/-- A text comes before another. -/
def Precedes (s t : Text) : Prop := s.le t = true ∧ s ≠ t

instance (s t : Text) : Decidable (s.Precedes t) := inferInstanceAs (Decidable (_ ∧ _))

theorem Precedes.asymm (h : s.Precedes t) : ¬ t.Precedes s :=
  fun h' => h.2 (le_antisymm h.1 h'.1)

end Text

namespace Text

instance : Std.Asymm Precedes := ⟨fun _ _ => Precedes.asymm⟩

instance : Std.Trichotomous Precedes := by
  refine ⟨fun s t hst hts => ?_⟩
  by_contra hne
  obtain h | h := total_of (fun s t : Text => s.le t = true) s t
  · exact hst ⟨h, hne⟩
  · exact hts ⟨h, Ne.symm hne⟩

theorem Precedes.trans {u : Text} (h : s.Precedes t) (h' : t.Precedes u) : s.Precedes u := by
  refine ⟨trans_of (fun s t : Text => s.le t = true) h.1 h'.1, ?_⟩
  rintro rfl
  exact h.2 (le_antisymm h.1 h'.1)

end Text

/-! ### Lists of texts -/

variable {ss ts texts : List Text}

theorem textsLe_iff : textsLe ss ts = true ↔ ss = ts ∨ List.Lex Text.Precedes ss ts := by
  induction ss generalizing ts with
  | nil =>
    cases ts with
    | nil => simp [textsLe]
    | cons t ts => simp [textsLe]
  | cons s ss ih =>
    cases ts with
    | nil => simp [textsLe]
    | cons t ts =>
      rw [textsLe, List.cons_lex_cons_iff, List.cons.injEq]
      by_cases hst : s = t
      · have hirrefl : ¬ t.Precedes t := fun h => h.2 rfl
        simp [hst, ih, hirrefl]
      · simp [hst, Text.Precedes]

theorem textsLe_antisymm (h : textsLe ss ts = true) (h' : textsLe ts ss = true) : ss = ts := by
  obtain heq | hlt := textsLe_iff.mp h
  · exact heq
  · obtain heq | hlt' := textsLe_iff.mp h'
    · exact heq.symm
    · exact absurd hlt' (Std.Asymm.asymm _ _ hlt)

theorem textsLe_total (ss ts : List Text) : textsLe ss ts = true ∨ textsLe ts ss = true := by
  obtain hlt | heq | hlt := trichotomous_of (List.Lex Text.Precedes) ss ts
  · exact .inl (textsLe_iff.mpr (.inr hlt))
  · exact .inl (textsLe_iff.mpr (.inl heq))
  · exact .inr (textsLe_iff.mpr (.inr hlt))

theorem textsLe_trans {us : List Text} (h : textsLe ss ts = true) (h' : textsLe ts us = true) :
    textsLe ss us = true := by
  obtain rfl | hlt := textsLe_iff.mp h
  · exact h'
  · obtain rfl | hlt' := textsLe_iff.mp h'
    · exact h
    · exact textsLe_iff.mpr (.inr (List.lex_trans Text.Precedes.trans hlt hlt'))

/-! ### Sorting -/

theorem sortTexts_eq (texts : List Text) :
    sortTexts texts = texts.insertionSort fun s t => s.le t = true := by
  have hinsert (t : Text) (texts : List Text) :
      insertText t texts = texts.orderedInsert (fun s t => s.le t = true) t := by
    induction texts with
    | nil => rfl
    | cons s rest ih => rw [insertText, List.orderedInsert_cons, ih]
  induction texts with
  | nil => rfl
  | cons t rest ih =>
    rw [List.insertionSort_cons, ← ih, ← hinsert]
    rfl

theorem perm_sortTexts (texts : List Text) : (sortTexts texts).Perm texts := by
  rw [sortTexts_eq]
  exact List.perm_insertionSort _ texts

theorem mem_sortTexts : t ∈ sortTexts texts ↔ t ∈ texts :=
  (perm_sortTexts texts).mem_iff

/-- Different texts are sorted so that each comes before the next ones. -/
theorem pairwise_sortTexts (h : texts.Nodup) : (sortTexts texts).Pairwise Text.Precedes := by
  have hle := List.pairwise_insertionSort (fun s t : Text => s.le t = true) texts
  rw [← sortTexts_eq] at hle
  exact hle.and ((perm_sortTexts texts).nodup_iff.mpr h)

end RoutePlugins
