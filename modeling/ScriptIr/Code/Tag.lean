/-!
# Kinds of instruction

Each instruction has a tag: its code in module files, its mnemonic in dumps, and the layout of the
fields that follow it.
-/
namespace ScriptIr.Code

/-- The kinds of instruction. A kind's code in module files is its position in this list. -/
inductive Tag where
  | ret | load | store | getItem | setItem | delItem | new | call | jump | branch | getGlobal
  | undefined | null | trueLit | falseLit | number | string | regex | object | array | func
  | arrow | add | sub | mul | div | mod | bitAnd | bitOr | bitXor | bitNot | logicalNot
  | shiftLeft | shiftRight | shiftRightZero | eq | strictEq | ne | strictNe | gt | ge | lt | le
  | inOp | instanceOf | typeOf | pushScope | popScope | alloca | arg | capture | this
  | arguments | move | phi | debugger | neg
  deriving DecidableEq, Repr, Inhabited

inductive FieldKind where
  /-- The value of another instruction. -/
  | value
  | block
  | function
  /-- A size, a count or an index. -/
  | immediate
  | number
  | text
  deriving DecidableEq, Repr, Inhabited

/-- The fields behind a tag: some in fixed positions, then, for tags that take a list, a count and
that many repetitions of a group. -/
structure Layout where
  fixed : List FieldKind := []
  group : Option (List FieldKind) := none
  deriving DecidableEq, Repr, Inhabited

namespace Tag

def all : List Tag :=
  [.ret, .load, .store, .getItem, .setItem, .delItem, .new, .call, .jump, .branch, .getGlobal,
   .undefined, .null, .trueLit, .falseLit, .number, .string, .regex, .object, .array, .func,
   .arrow, .add, .sub, .mul, .div, .mod, .bitAnd, .bitOr, .bitXor, .bitNot, .logicalNot,
   .shiftLeft, .shiftRight, .shiftRightZero, .eq, .strictEq, .ne, .strictNe, .gt, .ge, .lt,
   .le, .inOp, .instanceOf, .typeOf, .pushScope, .popScope, .alloca, .arg, .capture, .this,
   .arguments, .move, .phi, .debugger, .neg]

def code (t : Tag) : UInt32 := t.ctorIdx.toUInt32

def ofCode? (n : UInt32) : Option Tag := all[n.toNat]?

def mnemonic : Tag → String
  | ret => "return"
  | load => "load"
  | store => "store"
  | getItem => "get_item"
  | setItem => "set_item"
  | delItem => "del_item"
  | new => "new"
  | call => "call"
  | jump => "jump"
  | branch => "branch"
  | getGlobal => "get_global"
  | undefined => "undefined"
  | null => "null"
  | trueLit => "true"
  | falseLit => "false"
  | number => "number"
  | string => "string"
  | regex => "regex"
  | object => "object"
  | array => "array"
  | func => "func"
  | arrow => "arrow"
  | add => "add"
  | sub => "sub"
  | mul => "mul"
  | div => "div"
  | mod => "mod"
  | bitAnd => "band"
  | bitOr => "bor"
  | bitXor => "bxor"
  | bitNot => "bnot"
  | logicalNot => "lnot"
  | shiftLeft => "sll"
  | shiftRight => "srl"
  | shiftRightZero => "srr"
  | eq => "eq"
  | strictEq => "eqq"
  | ne => "ne"
  | strictNe => "nee"
  | gt => "gt"
  | ge => "ge"
  | lt => "lt"
  | le => "le"
  | inOp => "in"
  | instanceOf => "instanceof"
  | typeOf => "typeof"
  | pushScope => "push_scope"
  | popScope => "pop_scope"
  | alloca => "alloca"
  | arg => "arg"
  | capture => "capture"
  | this => "this"
  | arguments => "arguments"
  | move => "move"
  | phi => "phi"
  | debugger => "debugger"
  | neg => "neg"

def layout : Tag → Layout
  | ret | load | move | bitNot | logicalNot | typeOf | neg => { fixed := [.value] }
  | store | getItem | delItem | new | add | sub | mul | div | mod | bitAnd | bitOr | bitXor
  | shiftLeft | shiftRight | shiftRightZero | eq | strictEq | ne | strictNe | gt | ge | lt | le
  | inOp | instanceOf => { fixed := [.value, .value] }
  | setItem | call => { fixed := [.value, .value, .value] }
  | jump => { fixed := [.block] }
  | branch => { fixed := [.value, .block, .block] }
  | getGlobal | string | regex => { fixed := [.text] }
  | number => { fixed := [.number] }
  | object => { group := some [.value, .value] }
  | array => { group := some [.value] }
  | func | arrow => { fixed := [.function], group := some [.value] }
  | pushScope => { fixed := [.immediate], group := some [.value] }
  | popScope | arg | capture => { fixed := [.immediate] }
  | phi => { group := some [.block, .value] }
  | undefined | null | trueLit | falseLit | alloca | this | arguments | debugger => {}

end Tag

end ScriptIr.Code
