import RoutePlugins.Text.Search

/-!
# What values offer by name

The names under which values of each kind offer something: a field, or an operation that answers
without arguments or lacks some. Only what an operation lacks is told apart, since that is what a
message shows.
-/

namespace RoutePlugins.Cli

/-- What an operation lacks when it is called without arguments. -/
inductive Lack where
  /-- The other operand of an operator. -/
  | operand
  /-- This many arguments of an operator. -/
  | operands (count : Nat)
  /-- One argument of an operator, or more. -/
  | someOperands
  /-- One argument. -/
  | one
  /-- One argument or more. -/
  | oneOrMore
  /-- This many arguments or more. -/
  | atLeast (count : Nat)
  /-- This many arguments. -/
  | exactly (count : Nat)
  /-- The argument for its first parameter. -/
  | parameter (name : Text)
  /-- The kind of what is to be made. -/
  | kind
  /-- A way to write the value out. -/
  | form
  deriving DecidableEq

/-- How many arguments, in words. -/
def countText (count : Nat) : Text :=
  if count == 1 then "1 argument" else s!"{count} arguments"

/-- The message for an operation of a value that lacks something. -/
def Lack.message (kindName name : Text) : Lack → Text
  | .operand => "expected 1 argument, got 0"
  | .operands count => " expected " ++ countText count ++ ", got 0"
  | .someOperands => " expected at least 1 argument, got 0"
  | .one => kindName ++ "." ++ name ++ "() takes exactly one argument (0 given)"
  | .oneOrMore => name ++ "() takes at least 1 argument (0 given)"
  | .atLeast count => name ++ " expected at least " ++ countText count ++ ", got 0"
  | .exactly count => name ++ " expected " ++ countText count ++ ", got 0"
  | .parameter p => name ++ "() missing required argument " ++ "'" ++ p ++ "' (pos 1)"
  | .kind => kindName ++ ".__new__(): not enough arguments"
  | .form => "cannot pickle '" ++ kindName ++ "' object"

/-- What is offered under a name. -/
inductive Offer where
  /-- Something that cannot be called. -/
  | field
  /-- A text that tells about the value or its kind. -/
  | note
  /-- An operation that answers without arguments. -/
  | answer
  /-- An operation that lacks something. -/
  | lacking (what : Lack)
  deriving DecidableEq

/-- Offers, each with its names. -/
abbrev Offers := List (Offer × String)

/-- What is offered under a name. -/
def Offers.get? (offers : Offers) (name : Text) : Option Offer :=
  (offers.find? fun o => ((Text.ofString o.2).split ' ').contains name).map Prod.fst

namespace Offers

/-- What everything offers. -/
def common : Offers :=
  [(.note, "__doc__"),
   (.answer, "__dir__ __getstate__ __hash__ __init__ __init_subclass__ __repr__ __sizeof__ " ++
     "__str__ __subclasshook__"),
   (.lacking .operand, "__delattr__ __eq__ __ge__ __getattribute__ __gt__ __le__ __lt__ __ne__"),
   (.lacking (.operands 2), "__setattr__"),
   (.lacking .one, "__format__ __reduce_ex__"),
   (.lacking .kind, "__new__"),
   (.lacking .form, "__reduce__")]

/-- What nothing offers. -/
def nothing : Offers := [(.answer, "__bool__")]

/-- What numbers offer. -/
def number : Offers :=
  [(.field, "imag real"),
   (.answer, "__abs__ __bool__ __ceil__ __float__ __floor__ __getnewargs__ __int__ __neg__ " ++
     "__pos__ __round__ __trunc__ as_integer_ratio conjugate"),
   (.lacking .operand, "__add__ __divmod__ __floordiv__ __mod__ __mul__ __radd__ __rdivmod__ " ++
     "__rfloordiv__ __rmod__ __rmul__ __rsub__ __rtruediv__ __sub__ __truediv__"),
   (.lacking .someOperands, "__pow__ __rpow__")]

/-- What whole numbers offer beside. -/
def whole : Offers :=
  [(.field, "denominator numerator"),
   (.answer, "__index__ __invert__ bit_count bit_length to_bytes"),
   (.lacking .operand, "__and__ __lshift__ __or__ __rand__ __rlshift__ __ror__ __rrshift__ " ++
     "__rshift__ __rxor__ __xor__"),
   (.lacking (.parameter "bytes"), "from_bytes")]

/-- What doubles offer beside. -/
def double : Offers :=
  [(.answer, "hex is_integer"), (.lacking .one, "__getformat__ fromhex")]

/-- What texts offer. -/
def text : Offers :=
  [(.answer, "__getnewargs__ __iter__ __len__ capitalize casefold encode expandtabs format " ++
     "isalnum isalpha isascii isdecimal isdigit isidentifier islower isnumeric isprintable " ++
     "isspace istitle isupper lower lstrip rsplit rstrip split splitlines strip swapcase title " ++
     "upper"),
   (.lacking .operand, "__add__ __contains__ __getitem__ __mod__ __rmod__"),
   (.lacking (.operands 1), "__mul__ __rmul__"),
   (.lacking (.atLeast 1), "center ljust maketrans rjust"),
   (.lacking (.atLeast 2), "replace"),
   (.lacking .oneOrMore, "count endswith find index rfind rindex startswith"),
   (.lacking .one, "format_map join partition removeprefix removesuffix rpartition translate " ++
     "zfill")]

/-- What lists offer. -/
def list : Offers :=
  [(.field, "__hash__"),
   (.answer, "__iter__ __len__ __reversed__ clear copy pop reverse sort"),
   (.lacking .operand, "__add__ __contains__ __delitem__ __iadd__"),
   (.lacking (.operands 1), "__imul__ __mul__ __rmul__"),
   (.lacking (.operands 2), "__setitem__"),
   (.lacking .one, "__class_getitem__ __getitem__ append count extend remove"),
   (.lacking (.atLeast 1), "index"),
   (.lacking (.exactly 2), "insert")]

/-- What tuples offer. -/
def tuple : Offers :=
  [(.answer, "__getnewargs__ __iter__ __len__"),
   (.lacking .operand, "__add__ __contains__ __getitem__"),
   (.lacking (.operands 1), "__mul__ __rmul__"),
   (.lacking .one, "__class_getitem__ count"),
   (.lacking (.atLeast 1), "index")]

/-- What maps offer. -/
def map : Offers :=
  [(.field, "__hash__"),
   (.answer, "__iter__ __len__ __reversed__ clear copy items keys popitem update values"),
   (.lacking .operand, "__delitem__ __ior__ __or__ __ror__"),
   (.lacking (.operands 2), "__setitem__"),
   (.lacking .one, "__class_getitem__ __contains__ __getitem__"),
   (.lacking (.atLeast 1), "fromkeys get pop setdefault")]

/-- What plugins offer beside their parts. -/
def plugin : Offers :=
  [(.field, "__annotations__ __dataclass_fields__ __dataclass_params__ __dict__ __hash__ " ++
     "__match_args__ __weakref__"),
   (.note, "__module__"),
   (.answer, "__post_init__ __reduce__")]

/-- What a space of members offers beside them. -/
def space : Offers := [(.field, "__dict__"), (.answer, "__reduce__")]

/-- What modules offer beside their members. -/
def module : Offers :=
  [(.field, "__annotations__ __dict__ __doc__ __loader__ __package__ __spec__"),
   (.note, "__name__")]

/-- What functions offer. -/
def function : Offers :=
  [(.field, "__annotations__ __builtins__ __closure__ __code__ __defaults__ __dict__ __doc__ " ++
     "__globals__ __kwdefaults__"),
   (.note, "__module__ __name__ __qualname__"),
   (.lacking .someOperands, "__get__")]

/-- What operations offer. -/
def operation : Offers :=
  [(.field, "__module__ __text_signature__"), (.note, "__name__ __qualname__"),
   (.answer, "__reduce__")]

/-- What a maker of things offers. -/
def maker : Offers :=
  [(.field, "__base__ __bases__ __basicsize__ __dict__ __dictoffset__ __flags__ __itemsize__ " ++
     "__mro__ __text_signature__ __weakrefoffset__"),
   (.note, "__module__ __name__ __qualname__"),
   (.answer, "__prepare__ mro"),
   (.lacking .one, "__instancecheck__ __subclasscheck__")]

end Offers

end RoutePlugins.Cli
