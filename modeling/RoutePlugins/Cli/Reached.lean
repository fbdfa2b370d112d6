import RoutePlugins.Cli.Member

/-!
# Members in their places

Names lead from a module to a member, and from there to what it offers. A member that was reached so
is kept together with its place, since calling an operation may put something else there.
-/

namespace RoutePlugins.Cli

/-- A member that names lead to. -/
structure Reached where
  member : Member
  /-- How to put something else in the place of the member, or, for an operation, in the place of
  the member that it belongs to. What is offered by a kind has no place. -/
  put? : Option (Member → Member)

namespace Reached

/-- A module has been reached before any name is followed. -/
def start (module : Member) : Reached := ⟨module, some id⟩

/-- Follow a name to a part of a member, or to what the member offers by its kind. -/
def step? (name : Text) (r : Reached) : Option Reached :=
  match Assoc.get? name r.member.parts, r.member with
  | some part, .operation .. => some ⟨part, r.put?⟩
  | some part, owner => some ⟨part, r.put?.map fun put new => put (owner.withPart name new)⟩
  | none, owner =>
    match owner.offered? name, owner with
    | some m, .operation .. => some ⟨m, none⟩
    | some (.operation owner made left), _ => some ⟨.operation owner made left, r.put?⟩
    | offered, _ => offered.map (⟨·, none⟩)

/-- Follow names from member to member. -/
def follow? : List Text → Reached → Option Reached
  | [], r => some r
  | name :: rest, r => do (← r.step? name).follow? rest

/-- What the members of the module are after the operation that was reached is called. Nothing else
changes them. -/
def membersAfter? (r : Reached) : Option (List (Text × Member)) :=
  match r.member, r.put? with
  | .operation _ _ left, some put =>
    match put left with
    | .module members => some members
    | _ => none
  | _, _ => none

end Reached

end RoutePlugins.Cli
