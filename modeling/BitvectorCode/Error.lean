import BitvectorCode.Expr.Basic
import BitvectorCode.Layout.Ty

/-!
# Errors

Everything that can go wrong, as causes, and the one function that words them. An expression or a
place is kept as the text it renders to, because an error outlives the graph it speaks of.
-/

namespace BitvectorCode

inductive Unsupported where
  | signedVariant (type : Ty)
  | constantOfType (c : Constant) (type : Ty)
  | packetReadAt (index : String)
  | extractFrom (type : Ty) (offset width : Nat)
  | extractFromConstant (type : Ty)
  | diffOfPrimitive (place : String)
  | diffThroughPointer (place : String)
deriving DecidableEq

/-- How a solver failed to answer. -/
inductive SolverFailure where
  | unexpected (output : String)
  | notUtf8
  | refused (reason : String)
deriving DecidableEq

inductive Error where
  | divisionByZero
  | ambiguousSymbols (expr : String)
  | straddlesConcat (offset width : Nat)
  | invalidNode (id : NodeId)
  | notConstant (expr : String)
  | noSolver (reason : String)
  | sort
  | solver (failure : SolverFailure)
  | symbolicRead (root : String) (index : Constant)
  | tooWide (bits : Nat)
  | unaligned (offset : Nat)
  | unresolved (name context : String)
  | unsupported (what : Unsupported)
  | arity (given expected : Nat)
  | invalidRoot (id : RootId)
  | fieldOverlap (owner field : String)
  | fieldsPastEnd (owner : String) (span size : Nat)
  | chunkOverlap (name : String) (offset : Nat)
  | extractPastEnd (type : Ty)
  | callback (reason : String)
deriving DecidableEq, Inhabited

/-- Outcomes are compared when values and causes can be. -/
instance decEqOutcome {ε α : Type} [DecidableEq ε] [DecidableEq α] : DecidableEq (Except ε α)
  | .ok a, .ok b => decidable_of_iff (a = b) ⟨congrArg _, Except.ok.inj⟩
  | .error a, .error b => decidable_of_iff (a = b) ⟨congrArg _, Except.error.inj⟩
  | .ok _, .error _ | .error _, .ok _ => isFalse nofun

def Unsupported.message : Unsupported → String
  | signedVariant type => "signed variant of " ++ type.render
  | constantOfType c type => "constant " ++ c.render ++ " of type " ++ type.render
  | packetReadAt index => "packet read at symbolic index " ++ index
  | extractFrom type offset width =>
    s!"extract of {width} bits at {offset} from " ++ type.render
  | extractFromConstant type => "extract from a constant of type " ++ type.render
  | diffOfPrimitive place => "diff of " ++ place ++ ", a primitive outside a struct or array"
  | diffThroughPointer place => "diff through the pointer " ++ place

def SolverFailure.message : SolverFailure → String
  | unexpected output => "Unexpected solver output: " ++ output
  | notUtf8 => "Solver output is not utf8"
  | refused reason => reason

def Error.message : Error → String
  | divisionByZero => "Arithmetic error: Division by zero"
  | ambiguousSymbols expr => "Expression " ++ expr ++ " references more than one symbol, or none"
  | straddlesConcat offset width =>
    s!"Extract of {width} bits at offset {offset} straddles a concat boundary"
  | invalidNode id => s!"Invalid expression reference {id}"
  | notConstant expr => "Expression " ++ expr ++ " is not constant"
  | noSolver reason => "Io error: " ++ reason
  | sort => "Sort error, invalid bitness between expressions"
  | solver failure => "Solver error: " ++ failure.message
  | symbolicRead root index => "Read of symbolic byte " ++ index.render ++ " of " ++ root
  | tooWide bits => s!"Width of {bits} bits exceeds 64 bits"
  | unaligned offset => s!"Offset {offset} is not byte aligned"
  | unresolved name context =>
    "Symbol " ++ name ++ " could not be resolved, context: " ++ context
  | unsupported what => "Unsupported: " ++ what.message
  | arity given expected => s!"{given} children given for a node of arity {expected}"
  | invalidRoot id => s!"Invalid array reference {id}"
  | fieldOverlap owner field => "Field " ++ owner ++ "." ++ field ++ " overlaps the previous field"
  | fieldsPastEnd owner span size =>
    "Fields of " ++ owner ++ s!" span {span} bytes, more than its size of {size}"
  | chunkOverlap name offset =>
    "Chunk " ++ name ++ s!" at packet offset {offset} overlaps a declared chunk"
  | extractPastEnd type => "extract past the end of " ++ type.render
  | callback reason => reason

end BitvectorCode
