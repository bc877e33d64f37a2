/-! White space as the Unicode property `White_Space` defines it, and the removal of leading white
space.  Between the tokens of a type reference any of these characters may stand. -/

namespace FormatterPlan.Text

/-- The characters with the property `White_Space`. -/
def isBlank (c : Char) : Bool :=
  let n := c.val.toNat
  (9 ≤ n && n ≤ 13) || n == 0x20 || n == 0x85 || n == 0xA0 || n == 0x1680 ||
    (0x2000 ≤ n && n ≤ 0x200A) || n == 0x2028 || n == 0x2029 || n == 0x202F || n == 0x205F ||
    n == 0x3000

/-- The text from its first character on that is not white space. -/
def trimBlank (cs : List Char) : List Char := cs.dropWhile isBlank

theorem trimBlank_length_le (cs : List Char) : (trimBlank cs).length ≤ cs.length :=
  (List.dropWhile_suffix isBlank).length_le

end FormatterPlan.Text
