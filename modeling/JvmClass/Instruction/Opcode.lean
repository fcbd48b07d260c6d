/-!
# Opcodes

The opcodes that have a meaning of their own to this library, and the sets of
opcodes with operands that it understands.
-/

namespace JvmClass.Opcode

/-- Do nothing. -/
def nop : UInt8 := 0x00

/-- Push the null reference. -/
def aconstNull : UInt8 := 0x01

/-- Push a constant with an index of one byte. -/
def ldc : UInt8 := 0x12

/-- Push a constant with an index of two bytes. -/
def ldcWide : UInt8 := 0x13

/-- Push a wide constant. -/
def ldc2Wide : UInt8 := 0x14

/-- Increment a local variable. -/
def iinc : UInt8 := 0x84

/-- Jump by a table of consecutive keys. -/
def tableSwitch : UInt8 := 0xaa

/-- Jump by a table of pairs. -/
def lookupSwitch : UInt8 := 0xab

/-- Read a static field. -/
def getStatic : UInt8 := 0xb2

/-- Write an instance field. -/
def putField : UInt8 := 0xb5

/-- Call a constructor, a private method or a method of a superclass. -/
def invokeSpecial : UInt8 := 0xb7

/-- Call what a bootstrap method has set up. -/
def invokeDynamic : UInt8 := 0xba

/-- Create an object. -/
def new : UInt8 := 0xbb

/-- Create an array of references. -/
def anewArray : UInt8 := 0xbd

/-- Check the class of an object. -/
def checkCast : UInt8 := 0xc0

/-- Test the class of an object. -/
def instanceOf : UInt8 := 0xc1

/-- Give the next instruction a slot operand of two bytes. -/
def wide : UInt8 := 0xc4

/-- Create an array of several dimensions. -/
def multiANewArray : UInt8 := 0xc5

/-- The conditional and unconditional jumps with an offset of two bytes. -/
def isShortBranch (op : UInt8) : Bool :=
  0x99 ≤ op && op ≤ 0xa8 || op == 0xc6 || op == 0xc7

/-- The jumps with an offset of four bytes. -/
def isLongBranch (op : UInt8) : Bool := op == 0xc8 || op == 0xc9

/-- The instructions that read or write a field. -/
def isFieldAccess (op : UInt8) : Bool := getStatic ≤ op && op ≤ putField

/-- The instructions with a constant pool index of two bytes that may be
renumbered. -/
def hasPoolIndex (op : UInt8) : Bool :=
  op == ldcWide || op == ldc2Wide || getStatic ≤ op && op ≤ new || op == anewArray ||
    op == checkCast || op == instanceOf || op == multiANewArray

end JvmClass.Opcode
