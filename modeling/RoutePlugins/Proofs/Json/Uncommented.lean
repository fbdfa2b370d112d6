import RoutePlugins.Proofs.Json.Commented

/-!
# Texts without comments

A text has no comments if no slash outside its strings has a slash or a star behind it. Taking the
comments out of any text leaves such a text, also where a string or a comment is never closed, where
slashes stand alone, and where code points come together that a comment kept apart. A text without
comments is left as it is, so comments are out after one time.
-/

namespace RoutePlugins.Json

/-- The zone behind a code point, for a reader that knows strings and no comments. -/
def Zone.past : Zone → CodePoint → Zone
  | .escaped, _ => .string
  | .string, p => if p == '\\' then .escaped else if p == '"' then .code else .string
  | _, p => if p == '"' then .string else .code

/-- The zone in which what is left of a text goes on: a comment leaves nothing of itself. -/
def Zone.resumed : Zone → Zone
  | .lineComment | .blockComment => .code
  | zone => zone

/-- From a zone on, no slash outside strings begins a comment. -/
def UncommentedFrom (zone : Zone) (ps : List CodePoint) : Prop :=
  ∀ front back, ps = front ++ .char '/' :: back → front.foldl Zone.past zone = .code →
    ¬ OpensComment back

/-- A text in which no slash outside strings begins a comment. -/
def Uncommented (t : Text) : Prop := UncommentedFrom .code t.points

theorem uncommentedFrom_nil (zone : Zone) : UncommentedFrom zone [] := by
  intro front back h
  simp at h

variable {zone : Zone} {ps : List CodePoint}

/-- Where the next code point begins no comment, the code points behind it decide. -/
theorem uncommentedFrom_cons {p : CodePoint} :
    UncommentedFrom zone (p :: ps) ↔
      (zone = .code → p = .char '/' → ¬ OpensComment ps) ∧ UncommentedFrom (zone.past p) ps := by
  constructor
  · intro h
    refine ⟨?_, fun front back hps hzone => h (p :: front) back (by rw [hps]; rfl) hzone⟩
    rintro rfl rfl
    exact h [] ps rfl rfl
  · rintro ⟨hp, hps⟩ front back heq hzone
    cases front with
    | nil =>
      obtain ⟨rfl, rfl⟩ := List.cons.inj heq
      exact hp hzone rfl
    | cons q front =>
      obtain ⟨rfl, rfl⟩ := List.cons.inj heq
      exact hps front back rfl hzone

/-- A code point that begins no comment is kept. -/
theorem stripFrom_cons (hzone : zone.resumed = zone) {p : CodePoint}
    (hp : zone = .code → p = .char '/' → ¬ OpensComment ps) :
    stripFrom zone (p :: ps) = p :: stripFrom (zone.past p) ps := by
  cases zone with
  | code =>
    by_cases hquote : p = '"'
    · subst hquote
      rfl
    · have hpast : Zone.code.past p = .code := if_neg (by simpa using hquote)
      rw [stripFrom_code hquote (hp rfl), hpast]
  | string => rfl
  | escaped => rfl
  | lineComment => cases hzone
  | blockComment => cases hzone

theorem Zone.resumed_past (zone : Zone) (p : CodePoint) :
    (zone.past p).resumed = zone.past p := by
  cases zone with
  | escaped => rfl
  | string =>
    simp only [Zone.past]
    split
    · rfl
    · split <;> rfl
  | _ =>
    simp only [Zone.past]
    split <;> rfl

/-- Code points without comments are left as they are. -/
theorem stripFrom_of_uncommentedFrom (hzone : zone.resumed = zone) (h : UncommentedFrom zone ps) :
    stripFrom zone ps = ps := by
  induction ps generalizing zone with
  | nil => rw [stripFrom]
  | cons p ps ih =>
    obtain ⟨hp, hps⟩ := uncommentedFrom_cons.mp h
    rw [stripFrom_cons hzone hp, ih (zone.resumed_past p) hps]

/-- What is left begins a comment behind a slash only if the whole did: what is taken away begins
with a slash itself. -/
theorem opensComment_of_stripFrom (h : OpensComment (stripFrom .code ps)) : OpensComment ps := by
  cases ps with
  | nil => simp [stripFrom, OpensComment] at h
  | cons p ps =>
    by_cases hp : p = .char '/'
    · subst hp
      exact .inl rfl
    · rw [stripFrom_cons rfl fun _ hslash => absurd hslash hp] at h
      exact h

/-- Whatever the code points are, what is left of them has no comments. -/
theorem uncommentedFrom_stripFrom (zone : Zone) (ps : List CodePoint) :
    UncommentedFrom zone.resumed (stripFrom zone ps) := by
  fun_induction stripFrom zone ps with
  | case1 => exact uncommentedFrom_nil _
  | case2 p ps ih => exact uncommentedFrom_cons.mpr ⟨fun h => (by cases h), ih⟩
  | case3 p ps ih =>
    refine uncommentedFrom_cons.mpr ⟨fun h => (by cases h), ?_⟩
    rwa [← Zone.resumed_past]
  | case4 p ps hp ih =>
    obtain rfl : p = .char '\n' := by simpa using hp
    exact uncommentedFrom_cons.mpr ⟨fun _ h => (by cases h), ih⟩
  | case5 p ps hp ih => exact ih
  | case6 ps ih => exact ih
  | case7 p ps hp ih => exact ih
  | case8 ps ih => exact ih
  | case9 ps ih => exact ih
  | case10 p ps hline hblock ih =>
    refine uncommentedFrom_cons.mpr ⟨fun _ hp => ?_, ?_⟩
    · -- A slash that is kept goes before what was behind it, since that is kept too.
      subst hp
      intro hopens
      have hopens := opensComment_of_stripFrom hopens
      cases ps with
      | nil => simp [OpensComment] at hopens
      | cons q ps =>
        obtain hq | hq := hopens
        · exact hline ps rfl (congrArg (· :: ps) (Option.some.inj hq))
        · exact hblock ps rfl (congrArg (· :: ps) (Option.some.inj hq))
    · rwa [← Zone.resumed_past]

/-- Taking comments out of a text a second time changes nothing, whatever the text is; and the texts
that it leaves as they are have no comments. -/
theorem comments_stay_out (t : Text) :
    stripComments (stripComments t) = stripComments t ∧
      (stripComments t = t ↔ Uncommented t) := by
  have hleft (t : Text) : Uncommented (stripComments t) := uncommentedFrom_stripFrom .code t.points
  have hkept {t : Text} (h : Uncommented t) : stripComments t = t :=
    congrArg Text.mk (stripFrom_of_uncommentedFrom rfl h)
  exact ⟨hkept (hleft t), fun h => h ▸ hleft t, hkept⟩

-- Slashes that stand alone, digits that come together, and a string that is never closed.
example : stripComments "4/ /*1*/2/*/*/ / \"//" = "4/ 2 / \"//" := by decide

end RoutePlugins.Json
