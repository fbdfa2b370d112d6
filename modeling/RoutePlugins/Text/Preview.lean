import RoutePlugins.Text.Utf8

/-!
# Previews

A preview of a text is the text itself when its bytes fit a limit, and otherwise the whole
characters at its front that fit, with three dots after them. Half a surrogate pair counts as a
question mark, and is cut to one.
-/

namespace RoutePlugins.Text

/-- The first `limit` bytes; a negative limit counts from the end. -/
def cutBytes (limit : Int) (bs : Bytes) : Bytes :=
  if 0 ≤ limit then bs.take limit.toNat else bs.take (bs.length - limit.natAbs)

/-- A text cut down to at most `limit` bytes, marked with three dots when something was cut. -/
def preview (limit : Int) (t : Text) : Text :=
  let bs := Utf8.encodeReplacing t
  if (bs.length : Int) ≤ limit then t else Utf8.decodeSkipping (cutBytes limit bs) ++ "..."

end RoutePlugins.Text
