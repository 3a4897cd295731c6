/-!
# ZIP entry names

A ZIP entry name is UTF-8 when the entry's flags say so (bit 11), and code page 437
otherwise. UTF-8 is read leniently: each maximal ill-formed subsequence becomes one
replacement character U+FFFD, as Unicode recommends. Code page 437 agrees with ASCII below
`0x80` and maps each byte above to one character.
-/

namespace ContainerProbe.Zip

/-- The replacement character. -/
def replacementChar : Char := Char.ofNat 0xFFFD

/-- Whether a byte continues a UTF-8 sequence, within the range `lo .. hi`. -/
def inRange (lo hi : Nat) (b : Nat) : Bool := lo ≤ b && b ≤ hi

/-- The length of the UTF-8 sequence a lead byte starts and the range of its second byte;
`none` for a byte that cannot start a sequence. -/
def leadInfo (b : Nat) : Option (Nat × Nat × Nat) :=
  if b < 0x80 then some (1, 0, 0)
  else if inRange 0xC2 0xDF b then some (2, 0x80, 0xBF)
  else if b = 0xE0 then some (3, 0xA0, 0xBF)
  else if b = 0xED then some (3, 0x80, 0x9F)
  else if inRange 0xE1 0xEF b then some (3, 0x80, 0xBF)
  else if b = 0xF0 then some (4, 0x90, 0xBF)
  else if b = 0xF4 then some (4, 0x80, 0x8F)
  else if inRange 0xF1 0xF3 b then some (4, 0x80, 0xBF)
  else none

/-- How many bytes after the lead byte continue its sequence (at most `need`): the second
within `lo .. hi`, later ones within `0x80 .. 0xBF`. -/
def continued (need lo hi : Nat) (rest : List Nat) : Nat :=
  match need, rest with
  | 0, _ => 0
  | _, [] => 0
  | n + 1, b :: bs =>
    if inRange lo hi b then 1 + continued n 0x80 0xBF bs else 0

/-- The code point of a complete sequence. -/
def codePoint (lead : Nat) (cont : List Nat) : Nat :=
  let first := match cont.length with
    | 1 => lead % 32
    | 2 => lead % 16
    | _ => lead % 8
  cont.foldl (fun acc b => acc * 64 + b % 64) first

/-- Decodes UTF-8 bytes, replacing ill-formed parts, in at most `fuel` steps. -/
def decodeUtf8Within : Nat → List Nat → List Char
  | 0, _ => []
  | _, [] => []
  | fuel + 1, b :: rest =>
    match leadInfo b with
    | none => replacementChar :: decodeUtf8Within fuel rest
    | some (1, _, _) => Char.ofNat b :: decodeUtf8Within fuel rest
    | some (len, lo, hi) =>
      let k := continued (len - 1) lo hi rest
      if k = len - 1 then Char.ofNat (codePoint b (rest.take k)) :: decodeUtf8Within fuel (rest.drop k)
      else replacementChar :: decodeUtf8Within fuel (rest.drop k)

/-- Decodes UTF-8 bytes, replacing ill-formed parts. Every step consumes at least one byte,
so as many steps as bytes suffice. -/
def decodeUtf8 (bytes : List Nat) : List Char := decodeUtf8Within bytes.length bytes

/-- The characters of code page 437 from `0x80` to `0xFF`. -/
def cp437High : List Nat :=
  [0x00C7, 0x00FC, 0x00E9, 0x00E2, 0x00E4, 0x00E0, 0x00E5, 0x00E7,
   0x00EA, 0x00EB, 0x00E8, 0x00EF, 0x00EE, 0x00EC, 0x00C4, 0x00C5] ++
  [0x00C9, 0x00E6, 0x00C6, 0x00F4, 0x00F6, 0x00F2, 0x00FB, 0x00F9,
   0x00FF, 0x00D6, 0x00DC, 0x00A2, 0x00A3, 0x00A5, 0x20A7, 0x0192] ++
  [0x00E1, 0x00ED, 0x00F3, 0x00FA, 0x00F1, 0x00D1, 0x00AA, 0x00BA,
   0x00BF, 0x2310, 0x00AC, 0x00BD, 0x00BC, 0x00A1, 0x00AB, 0x00BB] ++
  [0x2591, 0x2592, 0x2593, 0x2502, 0x2524, 0x2561, 0x2562, 0x2556,
   0x2555, 0x2563, 0x2551, 0x2557, 0x255D, 0x255C, 0x255B, 0x2510] ++
  [0x2514, 0x2534, 0x252C, 0x251C, 0x2500, 0x253C, 0x255E, 0x255F,
   0x255A, 0x2554, 0x2569, 0x2566, 0x2560, 0x2550, 0x256C, 0x2567] ++
  [0x2568, 0x2564, 0x2565, 0x2559, 0x2558, 0x2552, 0x2553, 0x256B,
   0x256A, 0x2518, 0x250C, 0x2588, 0x2584, 0x258C, 0x2590, 0x2580] ++
  [0x03B1, 0x00DF, 0x0393, 0x03C0, 0x03A3, 0x03C3, 0x00B5, 0x03C4,
   0x03A6, 0x0398, 0x03A9, 0x03B4, 0x221E, 0x03C6, 0x03B5, 0x2229] ++
  [0x2261, 0x00B1, 0x2265, 0x2264, 0x2320, 0x2321, 0x00F7, 0x2248,
   0x00B0, 0x2219, 0x00B7, 0x221A, 0x207F, 0x00B2, 0x25A0, 0x00A0]

/-- The character of a code page 437 byte. -/
def cp437Char (b : Nat) : Char :=
  if b < 0x80 then Char.ofNat b else Char.ofNat (cp437High.getD (b - 0x80) 0xFFFD)

/-- The name stored in an entry's bytes, given whether the entry's flags mark it UTF-8. -/
def decodeName (utf8 : Bool) (raw : ByteArray) : String :=
  let bytes := raw.toList.map UInt8.toNat
  String.ofList (if utf8 then decodeUtf8 bytes else bytes.map cp437Char)

theorem cp437High_length : cp437High.length = 128 := by simp [cp437High]

end ContainerProbe.Zip
