import BitvectorCode.Expr.Basic

/-!
# Solver commands

The part of the SMT-LIB language that queries are written in: bitvector terms over byte arrays with
32-bit indices, and the commands that declare, define, assert and ask. Terms refer to the definition
of a node by the position of the node.
-/

namespace BitvectorCode.SmtLib

def indexBits : Nat := 32

inductive Term where
  | definition (e : NodeId)
  | literal (value bits : Nat)
  | bit (b : Bool)
  | select (array : String) (index : Term)
  | zeroExtend (extra : Nat) (t : Term)
  | signExtend (extra : Nat) (t : Term)
  | extract (high low : Nat) (t : Term)
  | concat (high low : Term)
  | not (t : Term)
  | binary (op : BinaryOp) (l r : Term)
  | ite (op : CompareOp) (l r ifTrue ifFalse : Term)
deriving DecidableEq

inductive Command where
  | produceModels
  | setLogic
  | declareArray (name : String)
  | assert (op : CompareOp) (l r : Term)
  | define (e : NodeId) (width : Nat) (body : Term)
  | checkSat
  | getValue (e : NodeId)
deriving DecidableEq

def nodeName (e : NodeId) : String := s!"e{e}"

def arrayName (name : String) : String := "|" ++ name ++ "|"

def group (words : List String) : String := "(" ++ " ".intercalate words ++ ")"

def operatorName : BinaryOp → String
  | .add => "bvadd"
  | .sub => "bvsub"
  | .mul => "bvmul"
  | .udiv => "bvudiv"
  | .sdiv => "bvsdiv"
  | .urem => "bvurem"
  | .srem => "bvsrem"
  | .and => "bvand"
  | .or => "bvor"
  | .xor => "bvxor"
  | .shl => "bvshl"
  | .lshr => "bvlshr"
  | .ashr => "bvashr"

def relationName : CompareOp → String
  | .eq => "="
  | .ne => "distinct"
  | .ult => "bvult"
  | .ule => "bvule"
  | .ugt => "bvugt"
  | .uge => "bvuge"
  | .slt => "bvslt"
  | .sle => "bvsle"
  | .sgt => "bvsgt"
  | .sge => "bvsge"

namespace Term

def render : Term → String
  | definition e => nodeName e
  | literal value bits => group ["_", "bv" ++ decimal value, toString bits]
  | bit b => if b then "#b1" else "#b0"
  | select array index => group ["select", arrayName array, index.render]
  | zeroExtend extra t => group [s!"(_ zero_extend {extra})", t.render]
  | signExtend extra t => group [s!"(_ sign_extend {extra})", t.render]
  | extract high low t => group [s!"(_ extract {high} {low})", t.render]
  | concat high low => group ["concat", high.render, low.render]
  | not t => group ["bvnot", t.render]
  | binary op l r => group [operatorName op, l.render, r.render]
  | ite op l r ifTrue ifFalse =>
    group ["ite", group [relationName op, l.render, r.render], ifTrue.render, ifFalse.render]

def ofRelation (op : CompareOp) (l r : Term) : Term := ite op l r (bit true) (bit false)

end Term

def Command.render : Command → String
  | produceModels => "(set-option :produce-models true)"
  | setLogic => "(set-logic QF_ABV)"
  | declareArray name =>
    group ["declare-fun", arrayName name, "()", s!"(Array (_ BitVec {indexBits}) (_ BitVec 8))"]
  | assert op l r => group ["assert", group [relationName op, l.render, r.render]]
  | define e width body =>
    group ["define-fun", nodeName e, "()", s!"(_ BitVec {width})", body.render]
  | checkSat => "(check-sat)"
  | getValue e => group ["get-value", group [nodeName e]]

def script (commands : List Command) : String :=
  String.join (commands.map fun command => command.render ++ "\n")

end BitvectorCode.SmtLib
