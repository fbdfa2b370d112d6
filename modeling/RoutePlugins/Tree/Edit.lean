import RoutePlugins.Fault

/-!
# Edits

An edit replaces the bytes from one offset up to another by a text. Edits are applied together: each
has to begin where the one before it has ended, or later, and to end inside the source.
-/

namespace RoutePlugins

/-- A replacement of bytes. -/
structure Edit where
  start : Int
  stop : Int
  text : Text

namespace Edit

/-- The order in which edits are applied: by start, then by end. -/
def le (a b : Edit) : Bool := a.start < b.start || (a.start == b.start && a.stop ≤ b.stop)

/-- The pieces of the edited source from the offset `cursor` on. -/
def pieces (source : Bytes) : Nat → List Edit → Except Fault Bytes
  | cursor, [] => .ok (source.drop cursor)
  | cursor, e :: rest =>
    if e.start < cursor || e.stop < e.start || (source.length : Int) < e.stop then
      .error (.range (.edit e.start e.stop))
    else
      match Utf8.encode e.text with
      | .error flaw => .error (.encoding flaw)
      | .ok new => do
        let after ← pieces source e.stop.toNat rest
        return (source.drop cursor).take (e.start.toNat - cursor) ++ new ++ after

/-- The bytes after all edits. -/
def applyBytes (source : Bytes) (edits : List Edit) : Except Fault Bytes :=
  pieces source 0 (edits.mergeSort le)

/-- The text after all edits. -/
def apply (source : Bytes) (edits : List Edit) : Except Fault Text := do
  (Utf8.decode (← applyBytes source edits)).mapError .decoding

/-- The text after all edits of the bytes of a text. -/
def applyText (source : Text) (edits : List Edit) : Except Fault Text := do
  apply (← (Utf8.encode source).mapError .encoding) edits

end Edit

end RoutePlugins
