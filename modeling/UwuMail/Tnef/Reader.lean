/-
# Text that was written as UTF-16

`codepage.rs`: what is no UTF-16 is read as U+FFFD, and never refused.
-/
import Mathlib
import UwuMail.Tnef.Lzfu
import UwuMail.Imap.Mutf7

namespace UwuMail.Tnef

abbrev Text := List Char

/-- `String::from_utf16_lossy`: a surrogate without its other half is U+FFFD. -/
def fromUtf16Lossy : List UInt16 → Text
  | [] => []
  | u :: units =>
    if u < 0xd800 || 0xdfff < u then Char.ofNat u.toNat :: fromUtf16Lossy units
    else if 0xdc00 ≤ u then '\uFFFD' :: fromUtf16Lossy units
    else match units with
      | [] => ['\uFFFD']
      | v :: units =>
        if 0xdc00 ≤ v && v ≤ 0xdfff then
          Char.ofNat (0x10000 + (u.toNat - 0xd800) * 0x400 + (v.toNat - 0xdc00)) :: fromUtf16Lossy units
        else '\uFFFD' :: fromUtf16Lossy (v :: units)

end UwuMail.Tnef
