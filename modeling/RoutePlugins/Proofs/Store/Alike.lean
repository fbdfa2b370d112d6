import Mathlib.Data.Nat.Digits.Defs
import RoutePlugins.Proofs.Lockstep
import RoutePlugins.Proofs.Store.ParseCaches

/-!
# Stores that are alike

Two stores of one plugin are alike if they differ at most in the files that were parsed through them
and in the times of their records. The requests of a phase cannot tell them apart, apart from the
one for the records themselves, and leave them alike.
-/

namespace RoutePlugins

variable {v v' : Json}

/-! ### Values up to times -/

/-- A record without its time. -/
def Json.untimedRecord : Json → Json
  | .obj fields => .obj (Ledger.fingerprint fields)
  | v => v

/-- A list of records without their times. -/
def Json.untimed : Json → Json
  | .arr items => .arr (items.map untimedRecord)
  | v => v

/-- The value in a slot as far as it counts: in the tables of records, without the times. -/
def untimedAt (key : AccessPath) (v : Json) : Json :=
  if key = ReportKind.error.path ∨ key = ReportKind.warning.path then v.untimed else v

theorem untimedAt_record (kind : ReportKind) (v : Json) : untimedAt kind.path v = v.untimed := by
  cases kind with
  | error => exact if_pos (.inl rfl)
  | warning => exact if_pos (.inr rfl)

theorem untimedAt_of_ne {key : AccessPath}
    (hk : key ≠ ReportKind.error.path ∧ key ≠ ReportKind.warning.path) (v : Json) :
    untimedAt key v = v := if_neg (not_or.mpr hk)

/-- Values up to times are both lists of records, or they are the same. -/
theorem Json.untimed_eq (h : v.untimed = v'.untimed) :
    v = v' ∧ (∀ items, v ≠ .arr items) ∨ ∃ items items', v = .arr items ∧ v' = .arr items' ∧
      items.map untimedRecord = items'.map untimedRecord := by
  cases v with
  | arr items =>
    cases v' with
    | arr items' =>
      simp only [untimed, Json.arr.injEq] at h
      exact .inr ⟨items, items', rfl, rfl, h⟩
    | _ => simp [untimed] at h
  | _ =>
    cases v' with
    | arr items' => simp [untimed] at h
    | _ => exact .inl ⟨h, by simp⟩

theorem Json.untimedRecord_eq (h : v.untimedRecord = v'.untimedRecord) :
    v = v' ∨ ∃ fields fields', v = .obj fields ∧ v' = .obj fields' ∧
      Ledger.fingerprint fields = Ledger.fingerprint fields' := by
  cases v with
  | obj fields =>
    cases v' with
    | obj fields' =>
      simp only [untimedRecord, Json.obj.injEq] at h
      exact .inr ⟨fields, fields', rfl, rfl, h⟩
    | _ => simp [untimedRecord] at h
  | _ =>
    cases v' with
    | obj fields' => simp [untimedRecord] at h
    | _ => exact .inl h

/-! ### Alike stores -/

/-- Two arenas of a plugin hold the same up to the times of records, and sound parsed files. -/
structure Arena.Alike (src : Sources) (a b : Arena) : Prop where
  left : ∃ cache, a.cache = some cache ∧ src.Sound cache
  right : ∃ cache, b.cache = some cache ∧ src.Sound cache
  keys : Assoc.keys a.slots = Assoc.keys firstSlots
  slots : a.slots.map (fun e => (e.1, untimedAt e.1 e.2)) =
    b.slots.map fun e => (e.1, untimedAt e.1 e.2)

/-- Two open stores of a plugin hold the same up to the times of records. -/
inductive Store.Alike (src : Sources) : Store → Store → Prop
  | mk (name : Text) {a b : Arena} (h : Arena.Alike src a b) :
      Alike src (.active name a) (.active name b)

variable {src : Sources}

namespace Arena.Alike

variable {a b : Arena} {key : AccessPath}

theorem get? (h : Arena.Alike src a b) (hk : key ∈ Assoc.keys firstSlots) :
    ∃ v v', Assoc.get? key a.slots = some v ∧ Assoc.get? key b.slots = some v' ∧
      untimedAt key v = untimedAt key v' := by
  obtain ⟨v, hv⟩ := Assoc.exists_get?_iff.mpr (h.keys ▸ hk)
  have hget := congrArg (Assoc.get? key) h.slots
  rw [Assoc.get?_mapValues, Assoc.get?_mapValues, hv] at hget
  obtain ⟨v', hv', heq⟩ := Option.map_eq_some_iff.mp hget.symm
  exact ⟨v, v', hv, hv', heq.symm⟩

theorem keys_right (h : Arena.Alike src a b) : Assoc.keys b.slots = Assoc.keys firstSlots := by
  have hkeys := congrArg (List.map Prod.fst) h.slots
  rw [List.map_map, List.map_map] at hkeys
  exact hkeys.symm.trans h.keys

theorem insert (h : Arena.Alike src a b) (hk : key ∈ Assoc.keys firstSlots)
    (hv : untimedAt key v = untimedAt key v') :
    Arena.Alike src { a with slots := Assoc.insert key v a.slots }
      { b with slots := Assoc.insert key v' b.slots } := by
  have hc : Assoc.contains key a.slots = true :=
    Option.isSome_iff_exists.mpr (Assoc.exists_get?_iff.mpr (h.keys ▸ hk))
  refine ⟨h.left, h.right, ?_, ?_⟩
  · rw [Assoc.keys_insert, if_pos hc]
    exact h.keys
  · rw [Assoc.insert_mapValues, Assoc.insert_mapValues, h.slots, hv]

end Arena.Alike

/-- The tables with which a session is opened are registered apart from the parsed files. -/
theorem proper_of_mem_firstSlots {key : AccessPath} (hk : key ∈ Assoc.keys firstSlots) :
    key.Proper ∧ key ≠ parsedPath ∧ parsedPath.isFront key = false := by
  revert key
  decide

namespace StoreM

theorem lockstep_read {α β : Type} {R : Store → Store → Prop} {V : α → β → Prop}
    {f : Store → Except Fault α} {g : Store → Except Fault β}
    (h : ∀ s t, R s t → ResultsAlike V (f s) (g t)) :
    Lockstep R V (StoreM.read f) (StoreM.read g) := by
  intro s t hr
  exact Lockstep.lift (h s t hr) s t hr

theorem lockstep_change {R : Store → Store → Prop} {f g : Store → Except Fault Store}
    (h : ∀ s t, R s t → ResultsAlike R (f s) (g t)) :
    Lockstep R Eq (StoreM.change f) (StoreM.change g) := by
  intro s t hr
  rw [change_apply, change_apply]
  obtain ⟨s', t', hf, hg, hr'⟩ | ⟨e, hf, hg⟩ := (h s t hr).ok_or_error
  · rw [hf, hg]
    exact .ok rfl hr'
  · rw [hf, hg]
    exact .error hr

end StoreM

/-! ### Reading and writing -/

namespace Store

/-- A value was read from a table, up to times. -/
def SameAt (key : AccessPath) (v v' : Value) : Prop :=
  ∃ j j', v = .ofJson j ∧ v' = .ofJson j' ∧ untimedAt key j = untimedAt key j'

/-- Every table of a session is there in alike stores, with the same value up to times. -/
theorem Alike.get {s t : Store} (h : Alike src s t) {key : AccessPath}
    (hk : key ∈ Assoc.keys firstSlots) :
    ∃ v v', s.get key.toValue = .ok v ∧ t.get key.toValue = .ok v' ∧ SameAt key v v' := by
  obtain ⟨hproper, -, hfront⟩ := proper_of_mem_firstSlots hk
  obtain @⟨name, a, b, h⟩ := h
  obtain ⟨v, v', hv, hv', heq⟩ := h.get? hk
  exact ⟨_, _, get_of_slotAt (s := .active name a) hproper hfront hv,
    get_of_slotAt (s := .active name b) hproper hfront hv', v, v', rfl, rfl, heq⟩

theorem lockstep_get {key : AccessPath} (hk : key ∈ Assoc.keys firstSlots) :
    Lockstep (Alike src) (SameAt key) (StoreM.read (·.get key.toValue))
      (StoreM.read (·.get key.toValue)) := by
  refine StoreM.lockstep_read fun s t h => ?_
  obtain ⟨v, v', hv, hv', hsame⟩ := h.get hk
  rw [hv, hv']
  exact .ok hsame

theorem SameAt.eq {key : AccessPath}
    (hk : key ≠ ReportKind.error.path ∧ key ≠ ReportKind.warning.path) {v v' : Value}
    (h : SameAt key v v') : v = v' := by
  obtain ⟨j, j', rfl, rfl, heq⟩ := h
  rw [untimedAt_of_ne hk, untimedAt_of_ne hk] at heq
  rw [heq]

/-- Writes to one table leave stores alike if what they write is the same up to times. -/
theorem lockstep_revise {key : AccessPath} (hk : key ∈ Assoc.keys firstSlots)
    {f g : AccessPath → Json → Except Fault Json}
    (hfg : ∀ v v', untimedAt key v = untimedAt key v' →
      ResultsAlike (fun n n' => untimedAt key n = untimedAt key n') (f key v) (g key v')) :
    Lockstep (Alike src) Eq (StoreM.change (·.revise key.toValue f))
      (StoreM.change (·.revise key.toValue g)) := by
  refine StoreM.lockstep_change fun s t h => ?_
  obtain ⟨hproper, hparsed, -⟩ := proper_of_mem_firstSlots hk
  obtain @⟨name, a, b, h⟩ := h
  obtain ⟨v, v', hv, hv', heq⟩ := h.get? hk
  have hslot (c : Arena) (x : Json) (hx : Assoc.get? key c.slots = some x) :
      (active name c).slot key.toValue = .ok ⟨name, c, key, x⟩ :=
    slot_eq_ok.mpr ⟨rfl, AccessPath.ofValue_toValue hproper, hparsed, hx⟩
  unfold revise
  rw [hslot a v hv, hslot b v' hv']
  change ResultsAlike _ (f key v >>= fun n => pure (Slot.write ⟨name, a, key, v⟩ n))
    (g key v' >>= fun n => pure (Slot.write ⟨name, b, key, v'⟩ n))
  obtain ⟨n, n', hf, hg, hn⟩ | ⟨e, hf, hg⟩ := (hfg v v' heq).ok_or_error
  · rw [hf, hg]
    exact .ok ⟨name, h.insert hk hn⟩
  · rw [hf, hg]
    exact .error e

section

variable {key : AccessPath} (hk : key ∈ Assoc.keys firstSlots)
  (hr : key ≠ ReportKind.error.path ∧ key ≠ ReportKind.warning.path)

include hk hr

theorem lockstep_table :
    Lockstep (Alike src) Eq (StoreM.read (·.get key.toValue)) (StoreM.read (·.get key.toValue)) :=
  (lockstep_get hk).mono fun _ _ => SameAt.eq hr

private theorem lockstep_revise_self (f : AccessPath → Json → Except Fault Json) :
    Lockstep (Alike src) Eq (StoreM.change (·.revise key.toValue f))
      (StoreM.change (·.revise key.toValue f)) := by
  refine lockstep_revise hk fun v v' heq => ?_
  rw [untimedAt_of_ne hr, untimedAt_of_ne hr] at heq
  subst heq
  cases f key v with
  | ok n => exact .ok rfl
  | error e => exact .error e

theorem lockstep_set (v : Value) :
    Lockstep (Alike src) Eq (StoreM.change (·.set key.toValue v))
      (StoreM.change (·.set key.toValue v)) := by
  simp only [set_eq_revise]
  exact lockstep_revise_self hk hr _

theorem lockstep_push (v : Value) :
    Lockstep (Alike src) Eq (StoreM.change (·.push key.toValue v))
      (StoreM.change (·.push key.toValue v)) := by
  simp only [push_eq_revise]
  exact lockstep_revise_self hk hr _

theorem lockstep_merge (v : Value) :
    Lockstep (Alike src) Eq (StoreM.change (·.merge key.toValue v))
      (StoreM.change (·.merge key.toValue v)) := by
  simp only [merge_eq_revise]
  exact lockstep_revise_self hk hr _

end

/-! ### Parsed files and imports -/

theorem lockstep_parse (hn : src.files.StartsProper) (file : Text) :
    Lockstep (Alike src) Eq (Store.parse src file) (Store.parse src file) := by
  intro s t h
  obtain @⟨name, ⟨_, slots⟩, ⟨_, slots'⟩, h⟩ := h
  obtain ⟨cache, rfl, hleft⟩ := h.left
  obtain ⟨cache', rfl, hright⟩ := h.right
  obtain ⟨e, hx, hs⟩ | ⟨parsed, after, hx, hs, hc⟩ := parse_of_sound hn hleft file
  · obtain ⟨e', hx', ht⟩ | ⟨parsed, after, hx', -⟩ := parse_of_sound hn hright file
    · cases hx.symm.trans hx'
      rw [hs, ht]
      exact .error ⟨name, h⟩
    · cases hx.symm.trans hx'
  · obtain ⟨e, hx', -⟩ | ⟨parsed', after', hx', ht, hc'⟩ := parse_of_sound hn hright file
    · cases hx.symm.trans hx'
    · cases hx.symm.trans hx'
      rw [hs, ht]
      exact .ok rfl ⟨name, ⟨after, rfl, hc⟩, ⟨after', rfl, hc'⟩, h.keys, h.slots⟩

end Store

namespace ImportGraph

open Store

/-- What is remembered for a file is looked up in the table of imports. -/
theorem read_imports {a : Arena} (hkeys : Assoc.keys a.slots = Assoc.keys firstSlots)
    (hv : Assoc.get? importsPath a.slots = some v) (key : Text) :
    a.read (importsPath ++ [key]) = (v.descend [key]).map .ofJson := by
  have hlength : ∀ k ∈ Assoc.keys firstSlots, k.length = 1 := by decide
  have hnone : Assoc.get? (importsPath ++ [key]) a.slots = none := by
    rw [Assoc.get?_eq_none_iff, hkeys]
    intro hm
    have := hlength _ hm
    simp [importsPath] at this
  have hfront : ∀ k ∈ Assoc.keys a.slots,
      k.isFront (importsPath ++ [key]) = true ↔ k = importsPath := by
    intro k hk
    rw [hkeys] at hk
    obtain ⟨segment, rfl⟩ := List.length_eq_one_iff.mp (hlength k hk)
    simp [AccessPath.isFront, importsPath]
  have hparsed : parsedPath.isFront (importsPath ++ [key]) = false := by
    rw [← Bool.not_eq_true]
    simp [AccessPath.isFront, parsedPath, importsPath]
    decide
  rw [Arena.read_eq_readSlots fun _ _ => hparsed, Arena.readSlots, hnone]
  dsimp only
  rw [Assoc.find?_of_get? (P := fun k => k.isFront (importsPath ++ [key])) hv hfront]
  rfl

theorem lockstep_remembered (key : Text) :
    Lockstep (Alike src) Eq (remembered importsPath key) (remembered importsPath key) := by
  refine StoreM.lockstep_read fun s t h => ?_
  obtain @⟨name, a, b, h⟩ := h
  change ResultsAlike Eq (AccessPath.ofValue (importsPath ++ [key] : AccessPath).toValue >>= a.read)
    (AccessPath.ofValue (importsPath ++ [key] : AccessPath).toValue >>= b.read)
  cases hof : AccessPath.ofValue (importsPath ++ [key] : AccessPath).toValue with
  | error e => exact .error e
  | ok p =>
    obtain rfl := AccessPath.eq_of_ofValue_toValue hof
    obtain ⟨v, v', hv, hv', heq⟩ := h.get? (by decide : importsPath ∈ Assoc.keys firstSlots)
    rw [untimedAt_of_ne (by decide), untimedAt_of_ne (by decide)] at heq
    change ResultsAlike Eq (a.read (importsPath ++ [key])) (b.read (importsPath ++ [key]))
    rw [read_imports h.keys hv, read_imports h.keys_right hv', heq]
    exact .refl _

/-- The imports of a file do not depend on the files that were parsed before. -/
theorem lockstep_imports (hn : src.files.StartsProper) (g : ImportGraph) (file : Text) :
    Lockstep (Alike src) Eq (g.imports src file) (g.imports src file) := by
  unfold imports
  refine (Lockstep.lift (.refl _)).bind_eq fun p => (lockstep_remembered p.text).bind_eq fun v => ?_
  split
  · refine (lockstep_parse hn _).bind_eq fun parsed => ?_
    refine (Lockstep.lift (.refl _)).bind_eq fun found => ?_
    exact (lockstep_merge (by decide) (by decide) _).bind_eq fun _ => .pure rfl
  · exact .lift (.refl _)

end ImportGraph

/-! ### Records -/

namespace Ledger

open Store

/-- The fields of a record followed by its time. -/
def timed (front : List (Text × Json)) (now : Nat) : List (Text × Json) :=
  front ++ ([("timestamp", .int now)] : List (Text × Json))

/-- Two records differ at most in their times. -/
def SameRecord (fields fields' : List (Text × Json)) : Prop :=
  ∃ front now now', (fields = timed front now ∧ Json.FewDigits now) ∧
    fields' = timed front now' ∧ Json.FewDigits now'

theorem fingerprint_timed (front : List (Text × Json)) (now : Nat) :
    fingerprint (timed front now) = fingerprint front := by
  unfold fingerprint timed
  rw [List.filter_append]
  exact List.append_nil _

theorem fingerprint_insert_time (v : Json) (fields : List (Text × Json)) :
    fingerprint (Assoc.insert "timestamp" v fields) = fingerprint fields := by
  induction fields with
  | nil => rfl
  | cons e rest ih =>
    obtain ⟨k, w⟩ := e
    unfold fingerprint at ih ⊢
    by_cases hk : k = "timestamp"
    · simp [Assoc.insert, hk]
    · simp [Assoc.insert, hk, ih]

/-- The times that a clock gives can be written. -/
theorem fewDigits_tick (c : Clock) : Json.FewDigits c.tick.1 := by
  have hlength := Nat.toDigits_length 10 _ 20 (by decide)
    (Nat.lt_trans (c.times c.asked).toNat_lt (by decide : 2 ^ 64 < 10 ^ 20))
  exact Nat.le_trans hlength (by decide)

theorem flawFields_timed (front : List (Text × Json)) {now : Nat} (h : Json.FewDigits now) :
    Json.flawFields? (timed front now) = Json.flawFields? front := by
  unfold timed
  induction front with
  | nil => simp [Json.flawFields?, Json.flaw?, h]
  | cons e rest ih =>
    obtain ⟨k, w⟩ := e
    simp only [List.cons_append, Json.flawFields?, ih]

theorem formFields_timed (r : NotJson) (depth : Nat) (front : List (Text × Json)) (now : Nat) :
    Value.formFields r depth (Value.ofJsonFields (timed front now)) =
      (Value.formFields r depth (Value.ofJsonFields front)).map (timed · now) := by
  unfold timed
  induction front with
  | nil =>
    simp only [List.nil_append, Value.ofJsonFields, Value.ofJson, Value.formFields, Value.form]
    rfl
  | cons e rest ih =>
    obtain ⟨k, w⟩ := e
    simp only [List.cons_append, Value.ofJsonFields, Value.formFields, ih]
    cases Value.form r depth (.ofJson w) with
    | error cause => rfl
    | ok j =>
      cases Value.formFields r depth (Value.ofJsonFields rest) with
      | error cause => rfl
      | ok fields => rfl

theorem joinedFields_timed (front : List (Text × Json)) (now : Nat) :
    Json.joinedFields (timed front now) = timed (Json.joinedFields front) now := by
  unfold timed
  induction front with
  | nil => rfl
  | cons e rest ih =>
    obtain ⟨k, w⟩ := e
    simp only [List.cons_append, Json.joinedFields, ih]

theorem joined_timed (front : List (Text × Json)) (now : Nat) :
    (Json.obj (timed front now)).joined =
    .obj (Assoc.insert "timestamp" (.int now) (Assoc.ofList (Json.joinedFields front))) := by
  rw [Json.joined, joinedFields_timed]
  exact congrArg Json.obj (Assoc.update_append _ _ _)

/-- A record with its time is kept if it can be kept without, and the time stays apart. -/
theorem keep_timed (front : List (Text × Json)) {now : Nat} (h : Json.FewDigits now) :
    (Value.ofJson (.obj (timed front now))).keep = (Value.ofJson (.obj front)).keep.map fun _ =>
      .obj (Assoc.insert "timestamp" (.int now) (Assoc.ofList (Json.joinedFields front))) := by
  unfold Value.keep Value.keepWithin
  change (Value.form (.kind "dict") (326 + 1) (.map (Value.ofJsonFields (timed front now))) >>= _) =
    (Value.form (.kind "dict") (326 + 1) (.map (Value.ofJsonFields front)) >>= _).map _
  rw [Value.form, Value.form, formFields_timed]
  cases hf : Value.formFields (.kind "dict") 326 (Value.ofJsonFields front) with
  | error cause => rfl
  | ok fields =>
    obtain ⟨hfields, -⟩ := Value.formFields_eq_ok _ hf
    obtain rfl : front = fields :=
      Json.obj.inj (Value.ofJson_injective (congrArg Value.map hfields))
    have hflaw : (Json.obj (timed front now)).flaw? = (Json.obj front).flaw? :=
      flawFields_timed front h
    cases hfront : (Json.obj front).flaw? with
    | some flaw =>
      simp only [Except.map, bind, Except.bind, pure, Except.pure, hflaw, hfront]
    | none =>
      simp only [Except.map, bind, Except.bind, pure, Except.pure, hflaw, hfront, joined_timed]

variable {fields fields' : List (Text × Json)}

theorem SameRecord.checked (h : SameRecord fields fields') (key : AccessPath) :
    ResultsAlike (fun n n' => n.untimedRecord = n'.untimedRecord)
      (Store.checked key (.ofJson (.obj fields))) (Store.checked key (.ofJson (.obj fields'))) := by
  obtain ⟨front, now, now', ⟨rfl, hnow⟩, rfl, hnow'⟩ := h
  unfold Store.checked
  rw [keep_timed front hnow, keep_timed front hnow']
  cases (Value.ofJson (.obj front)).keep with
  | ok kept =>
    refine .ok ?_
    simp only [Json.untimedRecord, fingerprint_insert_time]
  | error cause => exact .error _

theorem SameRecord.fingerprint_eq (h : SameRecord fields fields') :
    fingerprint fields = fingerprint fields' := by
  obtain ⟨front, now, now', ⟨rfl, -⟩, rfl, -⟩ := h
  rw [fingerprint_timed, fingerprint_timed]

theorem path_mem_firstSlots (kind : ReportKind) : kind.path ∈ Assoc.keys firstSlots := by
  cases kind with
  | error => decide
  | warning => decide

/-- Records that differ only in their times leave stores alike. -/
theorem lockstep_unshift (h : SameRecord fields fields') (kind : ReportKind) :
    Lockstep (Alike src) Eq (StoreM.change (·.unshift kind.path.toValue (.ofJson (.obj fields))))
      (StoreM.change (·.unshift kind.path.toValue (.ofJson (.obj fields')))) := by
  simp only [unshift_eq_revise]
  refine lockstep_revise (path_mem_firstSlots kind) fun v v' heq => ?_
  rw [untimedAt_record, untimedAt_record] at heq
  obtain ⟨rfl, hv⟩ | ⟨items, items', rfl, rfl, hitems⟩ := Json.untimed_eq heq
  · cases v with
    | arr items => exact absurd rfl (hv items)
    | _ => exact .error _
  · unfold extended
    obtain ⟨n, n', hn, hn', heq⟩ | ⟨e, he, he'⟩ := (h.checked kind.path).ok_or_error
    · rw [hn, hn']
      refine .ok ?_
      rw [untimedAt_record, untimedAt_record]
      simp only [Json.untimed, List.map_cons, heq, hitems]
    · rw [he, he']
      exact .error e

theorem isKnown_cons (print fields : List (Text × Json)) (rest : List Value) :
    isKnown print (.ofJson (.obj fields) :: rest) =
      if (Json.obj (fingerprint fields)).same (.obj print) then .ok true
      else isKnown print rest := by
  have hj : (Value.map (Value.ofJsonFields fields)).toJson? = some (.obj fields) :=
    Value.toJson?_ofJson (.obj fields)
  simp only [Value.ofJson, isKnown, Value.asRecord, bind, Except.bind, hj]
  rfl

/-- Whether a record is known does not depend on the times of the others. -/
theorem isKnown_congr (print : List (Text × Json)) {items items' : List Json}
    (h : items.map Json.untimedRecord = items'.map Json.untimedRecord) :
    isKnown print (Value.ofJsonItems items) = isKnown print (Value.ofJsonItems items') := by
  induction items generalizing items' with
  | nil =>
    cases items' with
    | nil => rfl
    | cons v' rest' => cases h
  | cons v rest ih =>
    cases items' with
    | nil => cases h
    | cons v' rest' =>
      rw [List.map_cons, List.map_cons, List.cons.injEq] at h
      have hrest := ih h.2
      obtain rfl | ⟨fields, fields', rfl, rfl, hfields⟩ := Json.untimedRecord_eq h.1
      · simp only [Value.ofJsonItems, isKnown, hrest]
      · simp only [Value.ofJsonItems, isKnown_cons, hfields, hrest]

/-- The stores of two ledgers are alike, whatever their clocks say. -/
def StoresAlike (src : Sources) (s t : LedgerState) : Prop := Store.Alike src s.store t.store

theorem lockstep_onStore {α β : Type} {V : α → β → Prop} {m : StoreM α} {m' : StoreM β}
    (h : Lockstep (Alike src) V m m') :
    Lockstep (StoresAlike src) V (LedgerM.onStore m) (LedgerM.onStore m') := by
  intro s t hst
  unfold LedgerM.onStore
  obtain ⟨a, b, s', t', hs, ht, hv, hr⟩ | ⟨e, s', t', hs, ht, hr⟩ :=
    (h s.store t.store hst).ok_or_error
  · rw [hs, ht]
    exact .ok hv hr
  · rw [hs, ht]
    exact .error hr

theorem lockstep_record (l : Ledger) (fs : Files) (message : Value) (file : Text)
    (mark : Option Mark) :
    Lockstep (StoresAlike src) SameRecord (l.record fs message file mark)
      (l.record fs message file mark) := by
  have htick : Lockstep (StoresAlike src) (fun (now now' : Nat) => Json.FewDigits now ∧
      Json.FewDigits now') LedgerM.tick LedgerM.tick :=
    fun s t h => .ok ⟨fewDigits_tick s.clock, fewDigits_tick t.clock⟩ h
  unfold record
  refine (Lockstep.lift (.refl _)).bind_eq fun present => ?_
  extract_lets rest
  have hrest (u : Unit) : Lockstep (StoresAlike src) SameRecord (rest u) (rest u) := by
    refine (Lockstep.lift (.refl _)).bind_eq fun resolved => htick.bind fun now now' hfew => ?_
    split
    · next plugin _ =>
      let record := recordFields plugin resolved.text mark (scrub l.root.text message.display)
      exact .pure ⟨(record 0).dropLast, now, now', ⟨rfl, hfew.1⟩, rfl, hfew.2⟩
    · exact .throw _
  exact Lockstep.ite ((Lockstep.throw _).bind_eq hrest) (hrest ())

/-- A report is new to both of two alike stores or to neither. -/
theorem lockstep_report (l : Ledger) (fs : Files) (kind : ReportKind) (message : Value)
    (file : Text) (mark : Option Mark) :
    Lockstep (StoresAlike src) Eq (l.report fs kind message file mark)
      (l.report fs kind message file mark) := by
  refine (lockstep_record l fs message file mark).bind fun fields fields' hf => lockstep_onStore ?_
  refine (lockstep_get (path_mem_firstSlots kind)).bind fun kept kept' hk => ?_
  have hknown : (do isKnown (fingerprint fields) (← kept.elements)) =
      (do isKnown (fingerprint fields') (← kept'.elements)) := by
    obtain ⟨j, j', rfl, rfl, heq⟩ := hk
    rw [untimedAt_record, untimedAt_record] at heq
    rw [hf.fingerprint_eq]
    obtain ⟨rfl, -⟩ | ⟨items, items', rfl, rfl, hitems⟩ := Json.untimed_eq heq
    · rfl
    · exact isKnown_congr _ hitems
  rw [hknown]
  refine (Lockstep.lift (.refl _)).bind_eq fun known => Lockstep.ite (.pure rfl) ?_
  exact (lockstep_unshift hf kind).bind_eq fun _ => .pure rfl

end Ledger

end RoutePlugins
