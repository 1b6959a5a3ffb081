import EvmLift.Opcode.Basic

/-!
# The opcode table

The standard instruction set. Opcodes that come in families (`push`, `dup`, `swap`,
`log`) are functions of their index; the others are listed. A byte without an entry
is an opcode of its own that faults.
-/

namespace EvmLift.Opcode

/-- An opcode that takes operands and leaves results, introduced at a fork. -/
def plain (byte : UInt8) (mnemonic : String) (pops pushes : Nat)
    (since : Fork := .frontier) : Opcode :=
  { byte, mnemonic, pops, pushes, since }

/-- An opcode whose one result is computed by an operator, with the sign that is
written between its operands. -/
def computing (byte : UInt8) (mnemonic : String) (operator : Operator)
    (symbol : Option String := none) (since : Fork := .frontier) : Opcode :=
  { byte, mnemonic, pops := operator.arity, pushes := 1, since, operator := some operator, symbol }

/-- The push of a constant of `width` bytes. -/
def push (width : Nat) : Opcode where
  byte := 0x5f + UInt8.ofNat width
  mnemonic := "push" ++ toString width
  pops := 0
  pushes := 1
  since := if width = 0 then .shanghai else .frontier
  immediate := width
  kind := .push

/-- The copy of slot `depth`, counted from one at the top. -/
def dup (depth : Nat) : Opcode where
  byte := 0x7f + UInt8.ofNat depth
  mnemonic := "dup" ++ toString depth
  pops := depth
  pushes := depth + 1
  kind := .dup

/-- The exchange of the top with slot `depth`, counted from zero at the top. -/
def swap (depth : Nat) : Opcode where
  byte := 0x8f + UInt8.ofNat depth
  mnemonic := "swap" ++ toString depth
  pops := depth + 1
  pushes := depth + 1
  kind := .swap

/-- The log record with `topics` topics. -/
def log (topics : Nat) : Opcode where
  byte := 0xa0 + UInt8.ofNat topics
  mnemonic := "log" ++ toString topics
  pops := topics + 2
  pushes := 0

/-- The designated faulting opcode. -/
def invalid : Opcode :=
  { plain 0xfe "invalid" 0 0 with kind := .fault, terminates := true }

/-- The faulting opcode that a byte without an entry stands for. -/
def unassigned (byte : UInt8) : Opcode :=
  { plain byte "throw" 0 0 with kind := .fault, terminates := true }

/-- Arithmetic, comparison, bits and hashing. -/
def computation : List Opcode :=
  [ { plain 0x00 "stop" 0 0 with terminates := true },
    computing 0x01 "add" .add "+",
    computing 0x02 "mul" .mul "*",
    computing 0x03 "sub" .sub "-",
    computing 0x04 "div" .div "//",
    computing 0x05 "sdiv" .sdiv "//",
    computing 0x06 "mod" .mod "%",
    computing 0x07 "smod" .smod "%",
    computing 0x08 "addmod" .addmod,
    computing 0x09 "mulmod" .mulmod,
    computing 0x0a "exp" .exp "**",
    computing 0x0b "signextend" .signextend,
    computing 0x10 "lt" .lt "<",
    computing 0x11 "gt" .gt ">",
    computing 0x12 "slt" .slt "<",
    computing 0x13 "sgt" .sgt ">",
    computing 0x14 "eq" .eq "==",
    computing 0x15 "iszero" .iszero,
    computing 0x16 "and" .and "&",
    computing 0x17 "or" .or "|",
    computing 0x18 "xor" .xor "^",
    computing 0x19 "not" .not,
    computing 0x1a "byte" .byte,
    computing 0x1b "shl" .shl none .constantinople,
    computing 0x1c "shr" .shr none .constantinople,
    computing 0x1d "sar" .sar none .constantinople,
    plain 0x20 "sha3" 2 1 ]

/-- The message being executed and the chain around it. -/
def environment : List Opcode :=
  [ plain 0x30 "address" 0 1,
    plain 0x31 "balance" 1 1,
    plain 0x32 "origin" 0 1,
    plain 0x33 "caller" 0 1,
    plain 0x34 "callvalue" 0 1,
    plain 0x35 "calldataload" 1 1,
    plain 0x36 "calldatasize" 0 1,
    plain 0x37 "calldatacopy" 3 0,
    plain 0x38 "codesize" 0 1,
    plain 0x39 "codecopy" 3 0,
    plain 0x3a "gasprice" 0 1,
    plain 0x3b "extcodesize" 1 1,
    plain 0x3c "extcodecopy" 4 0,
    plain 0x3d "returndatasize" 0 1 .byzantium,
    plain 0x3e "returndatacopy" 3 0 .byzantium,
    plain 0x3f "extcodehash" 1 1 .constantinople,
    plain 0x40 "blockhash" 1 1,
    plain 0x41 "coinbase" 0 1,
    plain 0x42 "timestamp" 0 1,
    plain 0x43 "number" 0 1,
    plain 0x44 "difficulty" 0 1,
    plain 0x45 "gaslimit" 0 1,
    plain 0x46 "chainid" 0 1 .istanbul,
    plain 0x47 "selfbalance" 0 1 .istanbul,
    plain 0x48 "basefee" 0 1 .london,
    plain 0x49 "blobhash" 1 1 .cancun,
    plain 0x4a "blobbasefee" 0 1 .cancun ]

/-- Stack, memory, storage and control flow. -/
def machine : List Opcode :=
  [ plain 0x50 "pop" 1 0,
    plain 0x51 "mload" 1 1,
    plain 0x52 "mstore" 2 0,
    plain 0x53 "mstore8" 2 0,
    plain 0x54 "sload" 1 1,
    plain 0x55 "sstore" 2 0,
    { plain 0x56 "jump" 1 0 with kind := .jump, terminates := true },
    { plain 0x57 "jumpi" 2 0 with kind := .jumpIf },
    plain 0x58 "pc" 0 1,
    plain 0x59 "msize" 0 1,
    plain 0x5a "gas" 0 1,
    { plain 0x5b "jumpdest" 0 0 with kind := .jumpDest },
    plain 0x5c "tload" 1 1 .cancun,
    plain 0x5d "tstore" 2 0 .cancun,
    plain 0x5e "mcopy" 3 0 .cancun ]

/-- Pushes, copies, exchanges and log records. -/
def families : List Opcode :=
  (List.range 33).map push ++
  (List.range 16).map (fun index => dup (index + 1)) ++
  (List.range 16).map (fun index => swap (index + 1)) ++
  (List.range 5).map log

/-- Calls to other contracts and the ways to end a call. -/
def calls : List Opcode :=
  [ plain 0xf0 "create" 3 1,
    plain 0xf1 "call" 7 1,
    plain 0xf2 "callcode" 7 1,
    { plain 0xf3 "return" 2 0 with terminates := true },
    plain 0xf4 "delegatecall" 6 1 .homestead,
    plain 0xf5 "create2" 4 1 .constantinople,
    plain 0xfa "staticcall" 6 1 .byzantium,
    { plain 0xfd "revert" 2 0 .byzantium with terminates := true },
    invalid,
    { plain 0xff "selfdestruct" 1 0 with terminates := true } ]

/-- Every assigned opcode, in byte order. -/
def assigned : List Opcode :=
  computation ++ environment ++ machine ++ families ++ calls

/-- The opcode that a byte stands for. -/
def ofByte (byte : UInt8) : Opcode :=
  (assigned.find? (fun op => op.byte = byte)).getD (unassigned byte)

/-- The opcodes of all bytes, in byte order. -/
def all : List Opcode :=
  (List.range 256).map (fun byte => ofByte (UInt8.ofNat byte))

/-- The first opcode in byte order with a mnemonic, given in any case. -/
def ofMnemonic? (name : String) : Option Opcode :=
  all.find? (fun op => op.mnemonic = name.toLower)

/-- The push for a constant of `width` bytes. Constants of no bytes are written
with one, and none has more than 32. -/
def pushOfWidth (width : Nat) : Opcode :=
  push (max 1 (min width 32))

/-- The narrowest push with at least one byte that holds a word. -/
def pushFor (value : Word) : Opcode :=
  pushOfWidth value.byteSize

end EvmLift.Opcode
