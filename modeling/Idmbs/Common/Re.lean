import Mathlib.Algebra.Group.Int.Defs

/-!
# Idmbs.Common.Re

Return codes (`common/re.h`): the ones the modelled functions produce, and the types every layer
shares: page ids, record ids and attribute types.
-/

namespace Idmbs

inductive Re where
  | success | genericError | invalidArgument | internal | noMem | empty
  | bufferPoolOpen | bufferPoolNoBuf | bufferPoolInvalidPageId
  | recordOpened | recordInvalidRId | recordInvalidKey | recordDuplicateKey | recordNoMem
  | recordEof | recordRecordNotExist
  | schemaDbExist | schemaTableExist | schemaTableNotExist | schemaFieldMissing | schemaFieldNotExist
  | schemaFieldTypeMismatch | schemaIndexExist
  | ioErr | ioErrRead | ioErrWrite | ioErrAccess | ioErrSeek | ioErrClose
  | lockedUnlock | fileRead | fileSeek | fileAssociated | logBufFull
  deriving DecidableEq, Repr, Inhabited

/-- Pages are numbered from 0; `none` stands for `BP_INVALID_PAGE_ID` where a link may be absent. -/
abbrev PageId := Nat

/-- `RecordId` (record.h); both fields are `int32_t`. -/
structure RecordId where
  pageId : Int
  slotId : Int
  deriving DecidableEq, Repr, Inhabited

namespace RecordId

def int32Max : Int := 2 ^ 31 - 1

def min : RecordId := ⟨0, 0⟩

def max : RecordId := ⟨int32Max, int32Max⟩

end RecordId

inductive AttrType where
  | undefined | chars | ints | floats | dates
  deriving DecidableEq, Repr, Inhabited

end Idmbs
