import RoutePlugins.Project.Aliases

/-!
# Commented texts

A commented text is a row of segments: code, strings, line comments and block comments. Taking the
comments out leaves the code and the strings as they are, the line end of each line comment, and
nothing of a block comment. What is left is a commented text again, one without comments, so a
configuration file with comments is read as the file without them.
-/

namespace RoutePlugins.Json

/-- A code point of a string as it stands, or any code point behind a backslash. -/
inductive StringItem where
  | plain (p : CodePoint) (quote : p ≠ '"') (escape : p ≠ '\\')
  | escaped (p : CodePoint)

/-- How an item of a string is written. -/
def StringItem.points : StringItem → List CodePoint
  | .plain p _ _ => [p]
  | .escaped p => ['\\', p]

/-- A segment of a commented text. -/
inductive Segment where
  /-- A run outside strings and comments. -/
  | code (run : List CodePoint) (noQuote : .char '"' ∉ run)
  | string (items : List StringItem)
  /-- A comment up to the end of its line, or of the text if it is not `ended`. -/
  | lineComment (body : List CodePoint) (noBreak : .char '\n' ∉ body) (ended : Bool)
  /-- A comment up to the first mark that closes one. -/
  | blockComment (body : List CodePoint) (noClose : ¬ [.char '*', .char '/'] <:+: body)

namespace Segment

/-- How a segment is written. -/
def points : Segment → List CodePoint
  | .code run _ => run
  | .string items => .char '"' :: (items.flatMap StringItem.points ++ [.char '"'])
  | .lineComment body _ true => .char '/' :: .char '/' :: (body ++ [.char '\n'])
  | .lineComment body _ false => .char '/' :: .char '/' :: body
  | .blockComment body _ => .char '/' :: .char '*' :: (body ++ [.char '*', .char '/'])

/-- A segment without its comment: of a line comment the line end, of a block comment nothing. -/
def uncommented : Segment → Segment
  | .lineComment _ _ true => .code ['\n'] (by decide)
  | .lineComment _ _ false => .code [] (by decide)
  | .blockComment _ _ => .code [] (by decide)
  | s => s

end Segment

/-- The code points of segments. -/
def segmentPoints (segments : List Segment) : List CodePoint := segments.flatMap Segment.points

/-- The text of segments. -/
def segmentText (segments : List Segment) : Text := ⟨segmentPoints segments⟩

/-- Whether a slash before these code points would begin a comment. -/
def OpensComment (ps : List CodePoint) : Prop :=
  ps.head? = some (.char '/') ∨ ps.head? = some (.char '*')

/-- A segment can stand before the code points `after`: no slash in code begins a comment, and only
the end of the text ends a line comment that has no line end. -/
def Segment.Before (after : List CodePoint) : Segment → Prop
  | .code run _ => ∀ front back, run = front ++ .char '/' :: back → ¬ OpensComment (back ++ after)
  | .lineComment _ _ false => after = []
  | _ => True

/-- Segments that can stand one after the other. -/
def Fits : List Segment → Prop
  | [] => True
  | s :: rest => s.Before (segmentPoints rest) ∧ Fits rest

/-! ### One segment -/

/-- A code point of code is kept. -/
theorem stripFrom_code {p : CodePoint} {ps : List CodePoint} (hquote : p ≠ '"')
    (hslash : p = .char '/' → ¬ OpensComment ps) :
    stripFrom .code (p :: ps) = p :: stripFrom .code ps := by
  rw [stripFrom]
  · simp [hquote]
  · rintro rest rfl rfl
    exact hslash rfl (.inl rfl)
  · rintro rest rfl rfl
    exact hslash rfl (.inr rfl)

variable {after body : List CodePoint} {p : Path}

theorem stripFrom_run {run : List CodePoint} (hquote : .char '"' ∉ run)
    (h : ∀ front back, run = front ++ .char '/' :: back → ¬ OpensComment (back ++ after)) :
    stripFrom .code (run ++ after) = run ++ stripFrom .code after := by
  induction run with
  | nil => rfl
  | cons p run ih =>
    have hp : p ≠ '"' := fun hp => hquote (by simp [hp])
    rw [List.cons_append, stripFrom_code hp fun hs => h [] run (by rw [hs]; rfl),
      ih (fun hm => hquote (by simp [hm])) fun front back hrun =>
        h (p :: front) back (by rw [hrun]; rfl)]
    rfl

theorem stripFrom_items (items : List StringItem) (after : List CodePoint) :
    stripFrom .string (items.flatMap StringItem.points ++ .char '"' :: after) =
      items.flatMap StringItem.points ++ .char '"' :: stripFrom .code after := by
  induction items with
  | nil => rfl
  | cons item items ih =>
    rw [List.flatMap_cons, List.append_assoc, List.append_assoc, ← ih]
    cases item with
    | plain p hquote hescape => simp [StringItem.points, stripFrom, hquote, hescape]
    | escaped p => rfl

theorem stripFrom_lineComment (h : .char '\n' ∉ body) (after : List CodePoint) :
    stripFrom .lineComment (body ++ after) = stripFrom .lineComment after := by
  induction body with
  | nil => rfl
  | cons p body ih =>
    have hp : ¬ (p == CodePoint.char '\n') = true := by
      rw [beq_iff_eq]
      rintro rfl
      exact h (by simp)
    rw [List.cons_append, stripFrom, if_neg hp]
    exact ih fun hm => h (by simp [hm])

/-- A block comment goes on up to the first star with a slash behind it. -/
theorem stripFrom_blockComment (h : ¬ [.char '*', .char '/'] <:+: body) (after : List CodePoint) :
    stripFrom .blockComment (body ++ .char '*' :: .char '/' :: after) = stripFrom .code after := by
  induction body with
  | nil => rfl
  | cons p body ih =>
    have hrest := ih fun hin => h (List.infix_cons hin)
    rw [List.cons_append, stripFrom]
    · exact hrest
    · rintro rest rfl hclose
      -- The body would close itself here, unless it ends, and a star is no slash.
      cases body with
      | nil => simp at hclose
      | cons q body =>
        obtain ⟨rfl, -⟩ := List.cons.inj hclose
        exact h ⟨[], body, rfl⟩

/-- A segment leaves what its uncommented form writes. -/
theorem stripFrom_segment {s : Segment} (h : s.Before after) :
    stripFrom .code (s.points ++ after) = s.uncommented.points ++ stripFrom .code after := by
  cases s with
  | code run hquote => exact stripFrom_run hquote h
  | string items =>
    have hitems := stripFrom_items items after
    simp only [Segment.points, Segment.uncommented, List.cons_append, List.append_assoc]
    exact congrArg (CodePoint.char '"' :: ·) hitems
  | lineComment body hbreak ended =>
    cases ended with
    | true =>
      simp only [Segment.points, List.cons_append, List.append_assoc]
      exact stripFrom_lineComment hbreak (.char '\n' :: after)
    | false =>
      cases h
      rw [List.append_nil]
      have hbody := stripFrom_lineComment hbreak []
      rwa [List.append_nil] at hbody
  | blockComment body hclose =>
    simp only [Segment.points, List.cons_append, List.append_assoc, List.nil_append]
    exact stripFrom_blockComment hclose after

/-! ### Rows of segments -/

theorem segmentPoints_cons (s : Segment) (rest : List Segment) :
    segmentPoints (s :: rest) = s.points ++ segmentPoints rest := List.flatMap_cons

variable {segments : List Segment} {fs : Files} {t : Text}

/-- Taking the comments out of segments leaves the segments without their comments. -/
theorem stripComments_segmentText (h : Fits segments) :
    stripComments (segmentText segments) = segmentText (segments.map Segment.uncommented) := by
  refine congrArg Text.mk ?_
  change stripFrom .code (segmentPoints segments) = _
  induction segments with
  | nil => rfl
  | cons s rest ih =>
    rw [segmentPoints_cons, stripFrom_segment h.1, ih h.2, List.map_cons, segmentPoints_cons]

/-- Nothing that begins a comment behind a slash comes to the front when comments are taken out. -/
theorem opensComment_uncommented
    (h : OpensComment (segmentPoints (segments.map Segment.uncommented))) :
    OpensComment (segmentPoints segments) := by
  induction segments with
  | nil => exact h
  | cons s rest ih =>
    rw [List.map_cons, segmentPoints_cons] at h
    rw [segmentPoints_cons]
    cases s with
    | code run hquote =>
      cases run with
      | nil => exact ih h
      | cons p run => exact h
    | string items => exact h
    | lineComment body hbreak ended =>
      cases ended with
      | true => exact .inl rfl
      | false => exact .inl rfl
    | blockComment body hclose => exact .inl rfl

/-- Segments without their comments can stand one after the other. -/
theorem fits_uncommented (h : Fits segments) : Fits (segments.map Segment.uncommented) := by
  induction segments with
  | nil => trivial
  | cons s rest ih =>
    refine ⟨?_, ih h.2⟩
    have hs := h.1
    cases s with
    | code run hquote =>
      intro front back hrun hopens
      refine hs front back hrun ?_
      cases back with
      | nil => exact opensComment_uncommented hopens
      | cons p back => exact hopens
    | string items => trivial
    | lineComment body hbreak ended =>
      cases ended with
      | true =>
        intro front back hrun
        rcases front with _ | ⟨_, _ | _⟩ <;> simp at hrun
      | false =>
        intro front back hrun
        simp at hrun
    | blockComment body hclose =>
      intro front back hrun
      simp at hrun

theorem uncommented_uncommented (s : Segment) : s.uncommented.uncommented = s.uncommented := by
  cases s with
  | lineComment body hbreak ended =>
    cases ended with
    | true => rfl
    | false => rfl
  | _ => rfl

/-- A text without comments is left as it is. -/
theorem stripComments_uncommented (h : Fits segments) :
    stripComments (segmentText (segments.map Segment.uncommented)) =
      segmentText (segments.map Segment.uncommented) := by
  rw [stripComments_segmentText (fits_uncommented h), List.map_map]
  congr 1
  exact List.map_congr_left fun s _ => uncommented_uncommented s

/-! ### Configuration files -/

/-- A file is read as its text without comments. -/
private theorem stripped_of_readText (h : fs.readText p = .ok t) :
    (do (read (stripComments (← fs.readText p))).mapError Fault.reading) =
      (read (stripComments t)).mapError Fault.reading := by
  rw [h]
  rfl

/-- Texts that are the same without their comments are read as the same document. -/
theorem readDocument_eq_of_stripped {fs' : Files} {p' : Path} {t' : Text} (name : Text)
    (h : fs.readText p = .ok t) (h' : fs'.readText p' = .ok t')
    (hs : stripComments t = stripComments t') :
    Aliases.readDocument fs name p = Aliases.readDocument fs' name p' := by
  unfold Aliases.readDocument
  rw [stripped_of_readText h, stripped_of_readText h', hs]

/-- A configuration file is read as the document that is left without its comments. -/
theorem readDocument_eq_ok_iff (name : Text) (h : fs.readText p = .ok t) {document : Json} :
    Aliases.readDocument fs name p = .ok document ↔ read (stripComments t) = .ok document := by
  unfold Aliases.readDocument
  rw [stripped_of_readText h]
  cases read (stripComments t) with
  | ok v =>
    constructor
    · rintro ⟨⟩
      rfl
    · rintro ⟨⟩
      rfl
  | error e =>
    constructor
    · intro h
      cases e with
      | _ => cases h
    · rintro ⟨⟩

/-- Taking comments out keeps the code and the strings in order, leaves the line end of a line
comment and nothing of a block comment. So a configuration file is read as the one without its
comments: it has the same document, and gives the same aliases or the same fault. -/
theorem comments_taken_out {segments : List Segment} (h : Fits segments) :
    stripComments (segmentText segments) = segmentText (segments.map Segment.uncommented) ∧
    (∀ (fs : Files) (name : Text) (p : Path), fs.readText p = .ok (segmentText segments) →
      ∀ document, Aliases.readDocument fs name p = .ok document ↔
        read (segmentText (segments.map Segment.uncommented)) = .ok document) ∧
    ∀ (fs fs' : Files) (root : Path) (name : Text),
      (Aliases.fileNames.findM? fun n => fs.isPresent (root.child n)) = .ok (some name) →
      (Aliases.fileNames.findM? fun n => fs'.isPresent (root.child n)) = .ok (some name) →
      fs.readText (root.child name) = .ok (segmentText segments) →
      fs'.readText (root.child name) =
        .ok (segmentText (segments.map Segment.uncommented)) →
      Aliases.load fs root = Aliases.load fs' root := by
  have hstrip := stripComments_segmentText h
  refine ⟨hstrip, fun fs name p ht document => ?_, fun fs fs' root name hf hf' ht ht' => ?_⟩
  · rw [readDocument_eq_ok_iff name ht, hstrip]
  · have hdocument := readDocument_eq_of_stripped name ht ht'
      (hstrip.trans (stripComments_uncommented h).symm)
    rw [Aliases.load, Aliases.load, hf, hf']
    change (Aliases.readDocument fs name _ >>= _) = (Aliases.readDocument fs' name _ >>= _)
    rw [hdocument]

namespace Sample

/-- A commented document: the mark of a comment, an escaped quote and an escaped backslash in a
string, a slash and stars in a block comment, and a quote in a line comment. -/
def commented : List Segment :=
  [.code [.char '\x7b'] (by decide),
    .string [.plain (.char '/') (by decide) (by decide), .plain (.char '*') (by decide) (by decide),
      .escaped (.char '"'), .escaped (.char '\\')],
    .code [.char ':'] (by decide),
    .blockComment [.char '/', .char '*', .char '*'] (by decide),
    .code [.char '1'] (by decide),
    .lineComment [.char '/', .char '"'] (by decide) true,
    .code [.char '\x7d'] (by decide),
    .lineComment [] (by decide) false]

theorem fits_commented : Fits commented := by
  have hcode {p : CodePoint} (hp : p ≠ .char '/') (hq : .char '"' ∉ [p])
      (after : List CodePoint) : (Segment.code [p] hq).Before after := by
    intro front back hrun
    rcases front with _ | ⟨q, _ | _⟩ <;> simp at hrun
    exact absurd hrun.1 hp
  exact ⟨hcode (by decide) _ _, trivial, hcode (by decide) _ _, trivial, hcode (by decide) _ _,
    trivial, hcode (by decide) _ _, rfl, trivial⟩

end Sample

/-- The sample is left with its brackets, its string and its number, and one line end. -/
theorem comments_taken_out_sample :
    Fits Sample.commented ∧
    segmentText Sample.commented = "\x7b\"/*\\\"\\\\\":/*/***/1///\"\n\x7d//" ∧
    stripComments "\x7b\"/*\\\"\\\\\":/*/***/1///\"\n\x7d//" =
      "\x7b\"/*\\\"\\\\\":1\n\x7d" := by
  refine ⟨Sample.fits_commented, by decide, ?_⟩
  exact (comments_taken_out Sample.fits_commented).1

end RoutePlugins.Json
