import Confidential.Text.Word

/-!
Letters in upper case and in lower case.
-/

namespace Confidential.Text

/-- Is a number in one of the ranges, as far as they have every second number? -/
def inSeconds (ranges : List (Nat × Nat)) (n : Nat) : Bool :=
  ranges.any fun (first,last) => first ≤ n && n ≤ last && (n - first) % 2 == 0

def upperWidths : List Nat :=
  [192,23,1,7,162,2,7,2,2,4,1,2,1,3,3,2,1,2,17,2,4,1,3,1,7,1,2,1,2,1,38,1,5,2,65,2,1,2,5,3,303,1,8,1,9,2,7,16,1,9,35,
   1,2,3,31,1,5,1,2,51,257,38,2889,38,1,1,5,1,722,86,2202,43,2,3,584,8,8,6,10,8,8,8,8,6,26,8,72,4,12,4,12,4,12,5,11,4,
   262,1,4,1,3,3,2,3,2,1,3,5,13,3,2,4,10,2,5,1,26,16,19,1,818,26,1840,48,51,2,9,3,1,1,2,1,8,3,113,1,31416,4,1,5,16,3,
   1,1,6,1,36,1,22315,26,1221,40,136,36,156,11,1,15,1,7,1,2,1770,51,3053,32,21888,32,26016,26,26,26,26,26,29,1,2,1,2,
   2,2,4,1,8,26,26,26,2,1,4,2,8,1,7,27,2,1,4,1,5,1,1,3,7,27,26,26,26,26,26,26,26,26,26,26,26,30,25,33,25,33,25,33,25,
   33,25,33,1,4405,34,2062,26,6,26,6,26]

def upperSeconds : List (Nat × Nat) :=
  [(256,310),(313,327),(330,376),(377,381),(388,390),(391,393),(418,422),(423,425),(428,430),(431,433),(437,439),
   (461,475),(478,494),(500,502),(506,562),(577,579),(584,590),(880,882),(902,904),(908,910),(911,913),(984,1006),
   (1015,1017),(1120,1152),(1162,1216),(1217,1229),(1232,1326),(7680,7828),(7838,7934),(8025,8031),(8484,8490),
   (11360,11362),(11367,11373),(11394,11490),(11499,11501),(42560,42604),(42624,42650),(42786,42798),(42802,42862),
   (42873,42877),(42878,42886),(42891,42893),(42896,42898),(42902,42922),(42934,42948),(42966,42968),(119964,119966)]

def lowerWidths : List Nat :=
  [170,1,10,1,4,1,36,24,1,8,127,2,7,1,3,2,4,1,2,1,3,3,2,1,17,1,8,2,2,3,5,2,1,2,1,2,103,6,2,1,2,2,1,1,13,68,1,36,7,2,
   30,5,96,1,49,1,2,4,18,1,27,35,1,2,3,3,24,4,1,1,2,1,2,2,51,48,256,41,2887,43,2,3,760,6,2178,9,119,192,214,8,98,8,8,
   6,10,8,8,8,8,6,10,8,8,8,8,14,2,53,1,2,10,3,1,2,4,1,3,4,2,2,8,8,10,3,1,2,4,1,116,1,13,1,16,13,109,1,3,2,3,1,27,1,4,
   1,4,1,2,2,8,4,4,1,33,16,4,1,843,26,1862,48,1,1,3,2,16,7,102,1,14,1,12,38,1,1,5,1,31086,2,146,2,62,9,27,2,25,1,73,2,
   821,43,1,13,7,80,20288,7,12,5,1065,26,1229,40,136,36,155,11,1,15,1,7,1,2,451,1,2,3,1,42,1,9,1285,51,3021,32,21888,
   32,26010,26,26,7,1,18,26,26,26,4,4,6,1,11,26,26,26,26,26,26,26,26,26,26,26,26,26,26,26,26,26,28,28,25,1,6,26,25,1,
   6,26,25,1,6,26,25,1,6,26,25,1,6,1,1,1844,10,1,20,2563,34]

def lowerSeconds : List (Nat × Nat) :=
  [(257,311),(312,328),(329,375),(378,382),(387,389),(417,421),(424,426),(427,429),(436,438),(462,476),(477,495),
   (496,498),(499,501),(505,563),(583,591),(881,883),(985,1007),(1121,1153),(1163,1215),(1218,1230),(1231,1327),
   (7681,7829),(7839,7935),(8124,8126),(11368,11372),(11377,11379),(11380,11382),(11393,11491),(11500,11502),
   (42561,42605),(42625,42651),(42787,42799),(42803,42863),(42874,42876),(42879,42887),(42892,42894),(42897,42899),
   (42903,42921),(42933,42947),(42952,42954),(42961,42969),(42998,43000),(119995,119997)]

def isUpperChar (c : Char) : Bool :=
  if c.toNat < 128 then c.isUpper else inWidths upperWidths c.toNat || inSeconds upperSeconds c.toNat

/-- Letters in lower case and in title case. -/
def isLowerChar (c : Char) : Bool :=
  if c.toNat < 128 then c.isLower else inWidths lowerWidths c.toNat || inSeconds lowerSeconds c.toNat

def isAllUpper (s : String) : Bool :=
  s.toList.any isUpperChar && !s.toList.any isLowerChar

end Confidential.Text
