import JvmClass.Outline.Classes
import JvmClass.Outline.Descriptors
import JvmClass.Outline.Queries
import JvmClass.Proofs.Attribute.Length
import JvmClass.Proofs.Attribute.Translation
import JvmClass.Proofs.CallSite.Emission
import JvmClass.Proofs.CallSite.InSteps
import JvmClass.Proofs.CallSite.Opening
import JvmClass.Proofs.CallSite.Prologue
import JvmClass.Proofs.CallSite.Repeated
import JvmClass.Proofs.CallSite.Watched
import JvmClass.Proofs.ClassFile.Editing
import JvmClass.Proofs.ClassFile.Truncation
import JvmClass.Proofs.Code.ConstructorSearch
import JvmClass.Proofs.Code.Copying
import JvmClass.Proofs.Code.WideningOrder
import JvmClass.Proofs.Code.WrittenFrames
import JvmClass.Proofs.ConstantPool.Permanence
import JvmClass.Proofs.Instruction.Grammar
import JvmClass.Proofs.Instruction.Tiling
import JvmClass.Proofs.Member.AttributeNames
import JvmClass.Proofs.Member.CopiedTwice
import JvmClass.Proofs.Member.ReplacedKinds
import JvmClass.Proofs.Member.Superclass
import JvmClass.Proofs.Text.Faults
import JvmClass.Proofs.Transform.InTurn
import JvmClass.Proofs.Transform.Matching
import JvmClass.Proofs.Transform.Rounds
import JvmClass.Proofs.Transform.Workshop
