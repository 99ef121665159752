import JarText.Bytes

/-!
# Code page 437

Each byte is one character. The lower half is that of ASCII. It is the alphabet of a zip entry's
name unless the entry says otherwise.
-/

set_option autoImplicit false

namespace JarText.Text.CodePage437

def upperHalf : Array Char :=
  ("ÇüéâäàåçêëèïîìÄÅÉæÆôöòûùÿÖÜ¢£¥₧ƒáíóúñÑªº¿⌐¬½¼¡«»░▒▓│┤╡╢╖╕╣║╗╝╜╛┐" ++
    "└┴┬├─┼╞╟╚╔╩╦╠═╬╧╨╤╥╙╘╒╓╫╪┘┌█▄▌▐▀αßΓπΣσµτΦΘΩδ∞φε∩≡±≥≤⌠⌡÷≈°∙·√ⁿ²■\u00A0").toList.toArray

def decodeByte (byte : UInt8) : Char :=
  if byte < 0x80 then Char.ofNat byte.toNat
  else upperHalf.getD (byte.toNat - 0x80) '\uFFFD'

def decode (bytes : Bytes) : String :=
  String.ofList (bytes.map decodeByte)

end JarText.Text.CodePage437
