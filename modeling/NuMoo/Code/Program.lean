import NuMoo.Code.Ast
import NuMoo.Code.Opcode

/-!
# Programs and the state of the code generator

`program.h`, and the data that `code_gen.c` keeps while it emits one vector. The
unsigned counters are natural numbers; the size of a vector, which the server
computes from them, is reduced to 32 bits where it is computed.
-/

namespace NuMoo

/-- `enum fixup_kind` -/
inductive FixupKind where
  | literal | fork | label | varRef | stack
deriving DecidableEq, Repr, Inhabited

/-- `Bytecodes`. `vector` holds the bytes that are written; `size` is the recorded size. -/
structure Bytecodes where
  numbytesLabel : Nat
  numbytesLiteral : Nat
  numbytesFork : Nat
  numbytesVarName : Nat
  numbytesStack : Nat
  vector : List UInt8
  size : Nat
  maxStack : Nat
deriving DecidableEq, Repr, Inhabited

/-- The recorded width of an operand. -/
def Bytecodes.width (bc : Bytecodes) : FixupKind → Nat
  | .literal => bc.numbytesLiteral
  | .fork => bc.numbytesFork
  | .label => bc.numbytesLabel
  | .varRef => bc.numbytesVarName
  | .stack => bc.numbytesStack

/-- `READ_BYTES`: the bytes at a position, the most significant one first. -/
def readBytes (vector : List UInt8) (p n : Nat) : Nat :=
  ((vector.drop p).take n).foldl (fun value b => value * 256 + b.toNat) 0

/-- The tables that the vectors of one program share. -/
structure Program where
  mainVector : Bytecodes
  literals : List Var
  forkVectors : List Bytecodes
deriving Repr, Inhabited

/-- `Fixup`. An absent `next` is -1. The source has no field `done`: it records that the
value of a label is final, and no function reads it. -/
structure Fixup where
  kind : FixupKind
  pc : Nat
  value : Nat
  prevLiterals : Nat
  prevForks : Nat
  prevVarRefs : Nat
  prevLabels : Nat
  prevStacks : Nat
  next : Option Nat
  done : Bool
deriving DecidableEq, Repr, Inhabited

/-- `GState` -/
structure GState where
  totalVarRefs : Nat
  literals : List Var
  forkVectors : List Bytecodes
deriving Repr, Inhabited

/-- `Loop`. The identifier of an unnamed loop, which is -1, is absent. -/
structure Loop where
  id : Option Nat
  topLabel : Fixup
  topStack : Nat
  bottomLabel : Option Nat
  bottomStack : Nat
deriving DecidableEq, Repr, Inhabited

namespace CodeGen

/-- `State`. An absent saved stack is `UINT_MAX`; the innermost loop comes first. -/
structure State where
  maxLiteral : Nat
  maxFork : Nat
  maxVarRef : Nat
  numLiterals : Nat
  numForks : Nat
  numVarRefs : Nat
  numLabels : Nat
  numStacks : Nat
  fixups : List Fixup
  bytes : List UInt8
  curStack : Nat
  maxStack : Nat
  savedStack : Option Nat
  loops : List Loop
  gstate : GState
deriving Repr, Inhabited

/-- `num_bytes` -/
def State.numBytes (state : State) : Nat := state.bytes.length

end CodeGen

/-- `init_gstate` -/
def initGState : GState where
  totalVarRefs := 0
  literals := []
  forkVectors := []

/-- `init_state` -/
def CodeGen.initState (gstate : GState) : CodeGen.State where
  maxLiteral := 0
  maxFork := 0
  maxVarRef := 0
  numLiterals := 0
  numForks := 0
  numVarRefs := 0
  numLabels := 0
  numStacks := 0
  fixups := []
  bytes := []
  curStack := 0
  maxStack := 0
  savedStack := none
  loops := []
  gstate := gstate

end NuMoo
