/-!
# The font

`font.h`: 128 glyphs of eight rows, one byte a row, leftmost pixel in the top bit.
Entries without an initialiser are blank.
-/

namespace Shell

/-- The initialisers of `font[128][8]`. -/
def font : List (Nat × List UInt8) := [
  (0, [0x00, 0x00, 0x00, 0x00, 0x00, 0x00, 0x00, 0x00]),
  (32, [0x00, 0x00, 0x00, 0x00, 0x00, 0x00, 0x00, 0x00]),
  (33, [0x18, 0x18, 0x18, 0x18, 0x00, 0x18, 0x00, 0x00]),
  (34, [0x6C, 0x6C, 0x00, 0x00, 0x00, 0x00, 0x00, 0x00]),
  (35, [0x6C, 0x6C, 0xFE, 0x6C, 0xFE, 0x6C, 0x6C, 0x00]),
  (36, [0x18, 0x3E, 0x60, 0x3C, 0x06, 0x7C, 0x18, 0x00]),
  (37, [0x00, 0x66, 0xAC, 0xD8, 0x36, 0x6A, 0xCC, 0x00]),
  (38, [0x38, 0x6C, 0x68, 0x76, 0xDC, 0xCC, 0x76, 0x00]),
  (39, [0x18, 0x18, 0x30, 0x00, 0x00, 0x00, 0x00, 0x00]),
  (40, [0x0C, 0x18, 0x30, 0x30, 0x30, 0x18, 0x0C, 0x00]),
  (41, [0x30, 0x18, 0x0C, 0x0C, 0x0C, 0x18, 0x30, 0x00]),
  (42, [0x00, 0x66, 0x3C, 0xFF, 0x3C, 0x66, 0x00, 0x00]),
  (43, [0x00, 0x18, 0x18, 0x7E, 0x18, 0x18, 0x00, 0x00]),
  (44, [0x00, 0x00, 0x00, 0x00, 0x18, 0x18, 0x30, 0x00]),
  (45, [0x00, 0x00, 0x00, 0x7E, 0x00, 0x00, 0x00, 0x00]),
  (46, [0x00, 0x00, 0x00, 0x00, 0x00, 0x18, 0x00, 0x00]),
  (47, [0x06, 0x0C, 0x18, 0x30, 0x60, 0xC0, 0x00, 0x00]),
  (48, [0x3C, 0x66, 0x6E, 0x76, 0x66, 0x3C, 0x00, 0x00]),
  (49, [0x18, 0x38, 0x18, 0x18, 0x18, 0x7E, 0x00, 0x00]),
  (50, [0x3C, 0x66, 0x06, 0x1C, 0x30, 0x7E, 0x00, 0x00]),
  (51, [0x3C, 0x66, 0x06, 0x1C, 0x06, 0x66, 0x3C, 0x00]),
  (52, [0x0C, 0x1C, 0x3C, 0x6C, 0x7E, 0x0C, 0x00, 0x00]),
  (53, [0x7E, 0x60, 0x7C, 0x06, 0x06, 0x66, 0x3C, 0x00]),
  (54, [0x1C, 0x30, 0x60, 0x7C, 0x66, 0x66, 0x3C, 0x00]),
  (55, [0x7E, 0x06, 0x0C, 0x18, 0x30, 0x30, 0x00, 0x00]),
  (56, [0x3C, 0x66, 0x66, 0x3C, 0x66, 0x66, 0x3C, 0x00]),
  (57, [0x3C, 0x66, 0x66, 0x3E, 0x06, 0x0C, 0x38, 0x00]),
  (58, [0x00, 0x18, 0x00, 0x00, 0x18, 0x00, 0x00, 0x00]),
  (59, [0x00, 0x18, 0x00, 0x00, 0x18, 0x18, 0x30, 0x00]),
  (60, [0x0C, 0x18, 0x30, 0x60, 0x30, 0x18, 0x0C, 0x00]),
  (61, [0x00, 0x00, 0x7E, 0x00, 0x7E, 0x00, 0x00, 0x00]),
  (62, [0x30, 0x18, 0x0C, 0x06, 0x0C, 0x18, 0x30, 0x00]),
  (63, [0x3C, 0x66, 0x06, 0x1C, 0x18, 0x00, 0x18, 0x00]),
  (64, [0x3C, 0x66, 0x6E, 0x6E, 0x60, 0x62, 0x3C, 0x00]),
  (65, [0x18, 0x3C, 0x66, 0x7E, 0x66, 0x66, 0x00, 0x00]),
  (66, [0x7C, 0x66, 0x66, 0x7C, 0x66, 0x7C, 0x00, 0x00]),
  (67, [0x3C, 0x66, 0x60, 0x60, 0x66, 0x3C, 0x00, 0x00]),
  (68, [0x78, 0x6C, 0x66, 0x66, 0x6C, 0x78, 0x00, 0x00]),
  (69, [0x7E, 0x60, 0x60, 0x78, 0x60, 0x7E, 0x00, 0x00]),
  (70, [0x7E, 0x60, 0x60, 0x78, 0x60, 0x60, 0x00, 0x00]),
  (71, [0x3C, 0x66, 0x60, 0x6E, 0x66, 0x3C, 0x00, 0x00]),
  (72, [0x66, 0x66, 0x66, 0x7E, 0x66, 0x66, 0x00, 0x00]),
  (73, [0x7E, 0x18, 0x18, 0x18, 0x18, 0x7E, 0x00, 0x00]),
  (74, [0x06, 0x06, 0x06, 0x06, 0x66, 0x3C, 0x00, 0x00]),
  (75, [0x66, 0x6C, 0x78, 0x70, 0x78, 0x6C, 0x66, 0x00]),
  (76, [0x60, 0x60, 0x60, 0x60, 0x60, 0x7E, 0x00, 0x00]),
  (77, [0x63, 0x77, 0x7F, 0x6B, 0x63, 0x63, 0x00, 0x00]),
  (78, [0x66, 0x76, 0x7E, 0x7E, 0x6E, 0x66, 0x00, 0x00]),
  (79, [0x3C, 0x66, 0x66, 0x66, 0x66, 0x3C, 0x00, 0x00]),
  (80, [0x7C, 0x66, 0x66, 0x7C, 0x60, 0x60, 0x00, 0x00]),
  (81, [0x3C, 0x66, 0x66, 0x66, 0x6C, 0x36, 0x00, 0x00]),
  (82, [0x7C, 0x66, 0x66, 0x7C, 0x6C, 0x66, 0x00, 0x00]),
  (83, [0x3C, 0x66, 0x60, 0x3C, 0x06, 0x66, 0x3C, 0x00]),
  (84, [0x7E, 0x18, 0x18, 0x18, 0x18, 0x18, 0x00, 0x00]),
  (85, [0x66, 0x66, 0x66, 0x66, 0x66, 0x3C, 0x00, 0x00]),
  (86, [0x66, 0x66, 0x66, 0x66, 0x3C, 0x18, 0x00, 0x00]),
  (87, [0x63, 0x63, 0x6B, 0x7F, 0x77, 0x63, 0x00, 0x00]),
  (88, [0x66, 0x66, 0x3C, 0x18, 0x3C, 0x66, 0x66, 0x00]),
  (89, [0x66, 0x66, 0x3C, 0x18, 0x18, 0x18, 0x00, 0x00]),
  (90, [0x7E, 0x06, 0x0C, 0x18, 0x30, 0x7E, 0x00, 0x00]),
  (91, [0x3C, 0x30, 0x30, 0x30, 0x30, 0x3C, 0x00, 0x00]),
  (92, [0xC0, 0x60, 0x30, 0x18, 0x0C, 0x06, 0x00, 0x00]),
  (93, [0x3C, 0x0C, 0x0C, 0x0C, 0x0C, 0x3C, 0x00, 0x00]),
  (94, [0x18, 0x3C, 0x66, 0x00, 0x00, 0x00, 0x00, 0x00]),
  (95, [0x00, 0x00, 0x00, 0x00, 0x00, 0x00, 0xFF, 0x00]),
  (96, [0x18, 0x18, 0x0C, 0x00, 0x00, 0x00, 0x00, 0x00]),
  (97, [0x00, 0x3C, 0x06, 0x3E, 0x66, 0x3E, 0x00, 0x00]),
  (98, [0x60, 0x60, 0x7C, 0x66, 0x66, 0x7C, 0x00, 0x00]),
  (99, [0x00, 0x3C, 0x60, 0x60, 0x60, 0x3C, 0x00, 0x00]),
  (100, [0x06, 0x06, 0x3E, 0x66, 0x66, 0x3E, 0x00, 0x00]),
  (101, [0x00, 0x3C, 0x66, 0x7E, 0x60, 0x3C, 0x00, 0x00]),
  (102, [0x1C, 0x30, 0x7C, 0x30, 0x30, 0x30, 0x00, 0x00]),
  (103, [0x00, 0x3E, 0x66, 0x66, 0x3E, 0x06, 0x3C, 0x00]),
  (104, [0x60, 0x60, 0x7C, 0x66, 0x66, 0x66, 0x00, 0x00]),
  (105, [0x18, 0x00, 0x38, 0x18, 0x18, 0x3C, 0x00, 0x00]),
  (106, [0x06, 0x00, 0x06, 0x06, 0x06, 0x06, 0x3C, 0x00]),
  (107, [0x60, 0x60, 0x66, 0x6C, 0x78, 0x6C, 0x66, 0x00]),
  (108, [0x38, 0x18, 0x18, 0x18, 0x18, 0x3C, 0x00, 0x00]),
  (109, [0x00, 0x66, 0x7F, 0x7F, 0x6B, 0x63, 0x00, 0x00]),
  (110, [0x00, 0x7C, 0x66, 0x66, 0x66, 0x66, 0x00, 0x00]),
  (111, [0x00, 0x3C, 0x66, 0x66, 0x66, 0x3C, 0x00, 0x00]),
  (112, [0x00, 0x7C, 0x66, 0x66, 0x7C, 0x60, 0x60, 0x00]),
  (113, [0x00, 0x3E, 0x66, 0x66, 0x3E, 0x06, 0x06, 0x00]),
  (114, [0x00, 0x7C, 0x66, 0x60, 0x60, 0x60, 0x00, 0x00]),
  (115, [0x00, 0x3C, 0x60, 0x3C, 0x06, 0x3C, 0x00, 0x00]),
  (116, [0x30, 0x30, 0x7C, 0x30, 0x30, 0x1C, 0x00, 0x00]),
  (117, [0x00, 0x66, 0x66, 0x66, 0x66, 0x3C, 0x00, 0x00]),
  (118, [0x00, 0x66, 0x66, 0x66, 0x3C, 0x18, 0x00, 0x00]),
  (119, [0x00, 0x63, 0x6B, 0x7F, 0x3E, 0x36, 0x00, 0x00]),
  (120, [0x00, 0x66, 0x3C, 0x18, 0x3C, 0x66, 0x00, 0x00]),
  (121, [0x00, 0x66, 0x66, 0x3E, 0x06, 0x3C, 0x00, 0x00]),
  (122, [0x00, 0x7E, 0x0C, 0x18, 0x30, 0x7E, 0x00, 0x00]),
  (123, [0x0E, 0x18, 0x18, 0x70, 0x18, 0x18, 0x0E, 0x00]),
  (124, [0x18, 0x18, 0x18, 0x00, 0x18, 0x18, 0x18, 0x00]),
  (125, [0x70, 0x18, 0x18, 0x0E, 0x18, 0x18, 0x70, 0x00]),
  (126, [0x76, 0xDC, 0x00, 0x00, 0x00, 0x00, 0x00, 0x00]),
  (127, [0xFF, 0xFF, 0xFF, 0xFF, 0xFF, 0xFF, 0xFF, 0xFF])]

/-- `font[(uint8_t)c][row]`.  A character from 128 on reads past the end of the
table; `stray` is what lies there. -/
def glyphRow (stray : UInt8 → Nat → UInt8) (c : UInt8) (row : Nat) : UInt8 :=
  if c < 128 then ((font.lookup c.toNat).getD []).getD row 0 else stray c row

end Shell
