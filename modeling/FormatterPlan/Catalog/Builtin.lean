/-! Types with a formatter of their own, fixed once and for all: primitive types and some standard
classes. -/

namespace FormatterPlan

/-- A type with a fixed formatter. -/
structure Builtin where
  metadataName : String
  formatter : String
  isValueType : Bool
deriving DecidableEq

namespace Builtin

/-- The types with a fixed formatter, in the order of their declarations. -/
def all : List Builtin := [
  ⟨"System.Boolean", "BooleanFormatter", true⟩,
  ⟨"System.Byte", "ByteFormatter", true⟩,
  ⟨"System.SByte", "SByteFormatter", true⟩,
  ⟨"System.Int16", "Int16Formatter", true⟩,
  ⟨"System.UInt16", "UInt16Formatter", true⟩,
  ⟨"System.Int32", "Int32Formatter", true⟩,
  ⟨"System.UInt32", "UInt32Formatter", true⟩,
  ⟨"System.Int64", "Int64Formatter", true⟩,
  ⟨"System.UInt64", "UInt64Formatter", true⟩,
  ⟨"System.Int128", "Int128Formatter", true⟩,
  ⟨"System.UInt128", "UInt128Formatter", true⟩,
  ⟨"System.Half", "HalfFormatter", true⟩,
  ⟨"System.Single", "SingleFormatter", true⟩,
  ⟨"System.Double", "DoubleFormatter", true⟩,
  ⟨"System.Decimal", "DecimalFormatter", true⟩,
  ⟨"System.Char", "CharFormatter", true⟩,
  ⟨"System.Text.Rune", "RuneFormatter", true⟩,
  ⟨"System.DateTime", "DateTimeFormatter", true⟩,
  ⟨"System.DateTimeOffset", "DateTimeOffsetFormatter", true⟩,
  ⟨"System.DateOnly", "DateOnlyFormatter", true⟩,
  ⟨"System.TimeOnly", "TimeOnlyFormatter", true⟩,
  ⟨"System.TimeSpan", "TimeSpanFormatter", true⟩,
  ⟨"System.Guid", "GuidFormatter", true⟩,
  ⟨"System.Numerics.BigInteger", "BigIntegerFormatter", true⟩,
  ⟨"System.Numerics.Complex", "ComplexFormatter", true⟩,
  ⟨"System.String", "NullableStringFormatter", false⟩,
  ⟨"System.Object", "PrimitiveObjectFormatter", false⟩,
  ⟨"System.Uri", "UriFormatter", false⟩,
  ⟨"System.Version", "VersionFormatter", false⟩,
  ⟨"System.Type", "TypeFormatter", false⟩,
  ⟨"System.Text.StringBuilder", "StringBuilderFormatter", false⟩,
  ⟨"System.Collections.BitArray", "BitArrayFormatter", false⟩]

/-- Arrays of bytes, which are not written as arrays. -/
def byteArray : Builtin := ⟨"System.Byte[]", "ByteArrayFormatter", false⟩

def byteName : String := "System.Byte"

end Builtin

/-- The keywords that name fixed types, and the full names of those. -/
def keywordAliases : List (String × String) := [
  ("bool", "System.Boolean"),
  ("byte", "System.Byte"),
  ("sbyte", "System.SByte"),
  ("short", "System.Int16"),
  ("ushort", "System.UInt16"),
  ("int", "System.Int32"),
  ("uint", "System.UInt32"),
  ("long", "System.Int64"),
  ("ulong", "System.UInt64"),
  ("float", "System.Single"),
  ("double", "System.Double"),
  ("decimal", "System.Decimal"),
  ("char", "System.Char"),
  ("string", "System.String"),
  ("object", "System.Object")]

end FormatterPlan
