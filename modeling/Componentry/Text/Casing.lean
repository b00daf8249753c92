/-!
# Letter case, one character at a time

Upper- and lower-casing map each character on its own by the simple case mappings of Unicode 17.0,
so the number of characters never changes: a letter whose capital would take two letters stays as
it is.
-/

namespace Componentry.Text

/-- Runs of capitals: the first one, how many there are, and how far on their small letters are.
Where a small letter comes next, capitals and small letters alternate. -/
def caseRuns : List (Nat × Nat × Int) :=
  [(65, 26, 32), (192, 23, 32), (216, 7, 32), (256, 24, 1), (306, 3, 1), (313, 8, 1), (330, 23, 1),
   (376, 1, -121), (377, 3, 1), (385, 1, 210), (386, 2, 1), (390, 1, 206), (391, 1, 1),
   (393, 2, 205), (395, 1, 1), (398, 1, 79), (399, 1, 202), (400, 1, 203), (401, 1, 1),
   (403, 1, 205), (404, 1, 207), (406, 1, 211), (407, 1, 209), (408, 1, 1), (412, 1, 211),
   (413, 1, 213), (415, 1, 214), (416, 3, 1), (422, 1, 218), (423, 1, 1), (425, 1, 218),
   (428, 1, 1), (430, 1, 218), (431, 1, 1), (433, 2, 217), (435, 2, 1), (439, 1, 219), (440, 1, 1),
   (444, 1, 1), (452, 1, 2), (455, 1, 2), (458, 1, 2), (461, 8, 1), (478, 9, 1), (497, 1, 2),
   (500, 1, 1), (502, 1, -97), (503, 1, -56), (504, 20, 1), (544, 1, -130), (546, 9, 1),
   (570, 1, 10795), (571, 1, 1), (573, 1, -163), (574, 1, 10792), (577, 1, 1), (579, 1, -195),
   (580, 1, 69), (581, 1, 71), (582, 5, 1), (880, 2, 1), (886, 1, 1), (895, 1, 116), (902, 1, 38),
   (904, 3, 37), (908, 1, 64), (910, 2, 63), (913, 17, 32), (931, 9, 32), (975, 1, 8),
   (984, 12, 1), (1015, 1, 1), (1017, 1, -7), (1018, 1, 1), (1021, 3, -130), (1024, 16, 80),
   (1040, 32, 32), (1120, 17, 1), (1162, 27, 1), (1216, 1, 15), (1217, 7, 1), (1232, 48, 1),
   (1329, 38, 48), (4256, 38, 7264), (4295, 1, 7264), (4301, 1, 7264), (5024, 80, 38864),
   (5104, 6, 8), (7305, 1, 1), (7312, 43, -3008), (7357, 3, -3008), (7680, 75, 1), (7840, 48, 1),
   (7944, 8, -8), (7960, 6, -8), (7976, 8, -8), (7992, 8, -8), (8008, 6, -8), (8025, 1, -8),
   (8027, 1, -8), (8029, 1, -8), (8031, 1, -8), (8040, 8, -8), (8072, 8, -8), (8088, 8, -8),
   (8104, 8, -8), (8120, 2, -8), (8122, 2, -74), (8124, 1, -9), (8136, 4, -86), (8140, 1, -9),
   (8152, 2, -8), (8154, 2, -100), (8168, 2, -8), (8170, 2, -112), (8172, 1, -7), (8184, 2, -128),
   (8186, 2, -126), (8188, 1, -9), (8498, 1, 28), (8544, 16, 16), (8579, 1, 1), (9398, 26, 26),
   (11264, 48, 48), (11360, 1, 1), (11362, 1, -10743), (11363, 1, -3814), (11364, 1, -10727),
   (11367, 3, 1), (11373, 1, -10780), (11374, 1, -10749), (11375, 1, -10783), (11376, 1, -10782),
   (11378, 1, 1), (11381, 1, 1), (11390, 2, -10815), (11392, 50, 1), (11499, 2, 1), (11506, 1, 1),
   (42560, 23, 1), (42624, 14, 1), (42786, 7, 1), (42802, 31, 1), (42873, 2, 1),
   (42877, 1, -35332), (42878, 5, 1), (42891, 1, 1), (42893, 1, -42280), (42896, 2, 1),
   (42902, 10, 1), (42922, 1, -42308), (42923, 1, -42319), (42924, 1, -42315), (42925, 1, -42305),
   (42926, 1, -42308), (42928, 1, -42258), (42929, 1, -42282), (42930, 1, -42261), (42931, 1, 928),
   (42932, 8, 1), (42948, 1, -48), (42949, 1, -42307), (42950, 1, -35384), (42951, 2, 1),
   (42955, 1, -42343), (42956, 8, 1), (42972, 1, -42561), (42997, 1, 1), (65313, 26, 32),
   (66560, 40, 40), (66736, 36, 40), (66928, 11, 39), (66940, 15, 39), (66956, 7, 39),
   (66964, 2, 39), (68736, 51, 64), (68944, 22, 32), (71840, 32, 32), (93760, 32, 32),
   (93856, 25, 27), (125184, 34, 34)]

/-- Characters with a capital whose small letter is another one. -/
def onlyUpper : List (Nat × Nat) :=
  [(181, 924), (305, 73), (383, 83), (453, 452), (456, 455), (459, 458), (498, 497), (837, 921),
   (962, 931), (976, 914), (977, 920), (981, 934), (982, 928), (1008, 922), (1009, 929),
   (1013, 917), (7296, 1042), (7297, 1044), (7298, 1054), (7299, 1057), (7300, 1058), (7301, 1058),
   (7302, 1066), (7303, 1122), (7304, 42570), (7835, 7776), (8126, 921)]

/-- Characters with a small letter whose capital is another one. -/
def onlyLower : List (Nat × Nat) :=
  [(304, 105), (453, 454), (456, 457), (459, 460), (498, 499), (1012, 952), (7838, 223),
   (8486, 969), (8490, 107), (8491, 229)]

/-- The code point `n` is one of `count` from `first` on; every second one counts if capitals and
small letters alternate. -/
def inRun (n first : Int) (count : Nat) (shift : Int) : Bool :=
  let step := if shift = 1 then 2 else 1
  first ≤ n && n < first + count * step && (n - first) % step == 0

def upperChar (c : Char) : Char :=
  let n := c.toNat
  match onlyUpper.lookup n with
  | some m => Char.ofNat m
  | none =>
    match caseRuns.find? fun (first, count, shift) => inRun n (first + shift) count shift with
    | some (_, _, shift) => Char.ofNat (Int.toNat (n - shift))
    | none => c

def lowerChar (c : Char) : Char :=
  let n := c.toNat
  match onlyLower.lookup n with
  | some m => Char.ofNat m
  | none =>
    match caseRuns.find? fun (first, count, shift) => inRun n first count shift with
    | some (_, _, shift) => Char.ofNat (Int.toNat (n + shift))
    | none => c

def upper (s : String) : String := String.ofList (s.toList.map upperChar)

def lower (s : String) : String := String.ofList (s.toList.map lowerChar)

end Componentry.Text
