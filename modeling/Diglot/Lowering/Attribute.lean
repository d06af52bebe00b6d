import Diglot.Lowering.Monad

/-! # Attributes

An attribute `Name(args)` of a class or procedure stands for an object of class `NameAttribute`. It
is kept if that class exists, its arguments are constant, and the class has a constructor for them;
otherwise it is reported and dropped.
-/

set_option autoImplicit false

namespace Diglot

mutual

/-- The expression is built from literals alone. A character literal does not count. -/
def Node.isConstant : Node → Bool
  | .literal kind _ _ => kind != .char
  | .list items dims _ _ => dims.isEmpty && Node.areConstant items
  | .group inner dims _ _ => dims.isEmpty && inner.isConstant
  | .unary _ operand _ => operand.isConstant
  | .binary left _ right _ => left.isConstant && right.isConstant
  | .range first last step _ => first.isConstant && last.isConstant && Node.isConstant? step
  | _ => false

/-- All expressions of a list are constant. -/
def Node.areConstant : List Node → Bool
  | [] => true
  | n :: rest => n.isConstant && Node.areConstant rest

/-- The part is missing or constant. -/
def Node.isConstant? : Option Node → Bool
  | none => true
  | some n => n.isConstant

end

namespace Lowering

/-- The class that an attribute of the given name stands for. -/
def attributeClass (name : String) : String := name ++ "Attribute"

/-- What is wrong with an attribute, or the attribute. -/
def checkAttribute (classes : ClassTable) (a : Call) :
    Except (Issue × String × Span) Attribute :=
  match classes.indexOf? (attributeClass a.name) with
  | none => .error (.unknownAttribute, "Unknown attribute '" ++ a.name ++ "'.", a.span)
  | some cls =>
    match a.args.find? fun arg => !arg.isConstant with
    | some arg =>
      .error (.nonConstantAttributeArgument,
        "Arguments of attribute '" ++ a.name ++ "' must be constant.", arg.span)
    | none =>
      let arity := a.args.length
      if ((classes.get? cls).bind fun c => c.procedures.anyConstructor? arity).isSome then
        .ok ⟨cls, a.args⟩
      else
        .error (.attributeArityMismatch,
          "No constructor of attribute '" ++ a.name ++ "' takes " ++ toString arity ++
            " argument(s).", a.span)

/-- The attributes that can be kept; the others are reported. -/
def lowerAttributes : List Call → Lower (List Attribute)
  | [] => return []
  | a :: rest => do
    match checkAttribute (← getSession).classes a with
    | .ok kept => return kept :: (← lowerAttributes rest)
    | .error (issue, message, span) =>
      report issue message span
      lowerAttributes rest

end Lowering

end Diglot
