import Jade.Text.Digit
import Jade.Text.Runs
import Jade.Text.Word

/-!
# Identifiers

The names that may stand in an expression. They are narrower than the words of a template: a
superscript number is a word character but starts no identifier. On the other hand, marks that
combine with a letter may stand in an identifier. The tables follow version 14 of the Unicode
character database.
-/

namespace Jade

/-- Word characters beyond ASCII, other than digits, that start no identifier: numbers and a few
letters. -/
def wordOnlyRuns : List Nat :=
  runsOf [
    "178 beabc699 a1657 f376 f120 c133 g217 gqi186 a127 a118 j1077 t1139 j480 a1685 acffj198 pOa",
    "726 60 78 v630 D1385 a305 a866 d138 jDhaoFjMo30064 f21544 f406 b116 aaaaaaaaaaaaaaa287 b359 S",
    "65 dqb341 AJd1332 hygMi75 evf160 bbpbT64 iZbDc75 e104 hxhOg330 f352 E158 jPd112 g134 t379 t",
    "1349 b430 i871 s851 u19334 g798 w25673 t108 y5454 i929 59 acad76 Sao962 m"]

/-- Characters beyond ASCII that start an identifier and are no word characters. -/
def identOnlyRuns : List Nat := runsOf ["6277 b2193 aua"]

/-- Characters beyond ASCII, other than digits, that continue an identifier and start none. -/
def identMarkRuns : List Nat :=
  runsOf [
    "183 a584 112 wa251 e265 Saaababaa72 kVupa101 gbfbbadIaDA91 k58 iiaxdaiacaeQc60 hPxaG54 caragj",
    "bCc56 aagbbbciajbzabc56 aaedbbccaDbcakc56 aahacactbvfac56 aagbbbcgcjbDa59 eccadiaNe55 aagacad",
    "gbkbCc56 aagacadgbkbBd55 bagacadiajbCc70 adfaaahrb61 aahlh98 aajkf74 bAaaaaadbWtabekaJia100 t",
    "wddcacbgcdmlaajd703 cii928 dBcCbDb64 FiaScaa153 a118 ldl158 a60 e57 jaCbaVnapWeUqLilcDm56 nVt",
    "152 caudafabc198 64 575 bsa123 mdacl3070 c141 a96 F554 f105 b30164 adjFb80 b272 acadaweda83 b",
    "XrzrmaLhymRdUnJa67 nlahbScXaacbbebaaOeeb236 hab20272 a737 pppcbxc239 a94 b605 a226 a149 e",
    "1670 cabedNcda165 b573 d387 b153 kWd122 c53 oOabbjdSkga61 cJnpbRalcVnhdab92 lfa160 lud55 bagb",
    "bbciajbbgce192 rwa81 t235 gbiAb82 q106 m101 o256 o245 fabbdaaab141 gbgcaBjNgadhaikTp405 hah",
    "82 van122 fcaabagaa66 eabae347 d19449 e59 g1048 aa55 gd81 akb19627 b4705 Tbw542 ecfhhbgDd148 ",
    "c1979 55 dXhanaveao1360 gaqbgabae261 g375 a61 d1504 g109 g792501 240 "]

def isIdentStart (c : Char) : Bool :=
  if c.toNat < 0x80 then c.isAlpha || c == '_'
  else inRuns identOnlyRuns c.toNat ||
    isWord c && (decimalDigit? c).isNone && !inRuns wordOnlyRuns c.toNat

/-- The characters that continue an identifier. -/
def isIdentRest (c : Char) : Bool :=
  if c.toNat < 0x80 then c.isAlphanum || c == '_'
  else isIdentStart c || (decimalDigit? c).isSome || inRuns identMarkRuns c.toNat

end Jade
