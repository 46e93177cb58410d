import Jade.Text.Runs

/-!
# Word characters

Names of tags, classes, filters and variables are runs of word characters: letters and numbers of
any script, and the underscore. Marks that combine with a letter are not word characters. The table
follows version 14 of the Unicode character database.
-/

namespace Jade

def wordRuns : List Nat :=
  runsOf [
    "170 agbaacbacawaEa458 dlnegaaa129 eabbdaafaacaaata83 a139 h166 aLbafO71 AddSQujdba99 aaobgoba",
    "paaDC89 kanQibdaevdaiacawygkexafqP58 54 caragjdjapdhbbbvagaacdcapambacdlbfbahfdbbvagabababEda",
    "agjbcpiacavagabaecaraobdjiakhbbbvagabaecaDbacdjagkaafccadcbaaabcbccclvaumrhacawapcazcbabbdjhg",
    "aadhacawajaecaEbabdjabqiacaObapaecajdsafercxaiaabgEjqVablgijMbaaaeaxaaajabiabeaaijbdFaEtlhaJA",
    "e115 QtkffddcacbgcdmlaajfLaaeabQa333 adbgaaadbOadbGadbgaaadboa57 adb67 ntcpp86 bfc620 bqaze",
    "75 ckgrmsnrnmacoZIadacjfjvjf89 gebHaae70 jEMNbekRdzfkKwi53 Qjfjma93 UqhcjODm56 zJBjcWbigQbcOd",
    "afabcae192 64 278 bfbLbfbhaaaaaaaEb53 agaaccagcdbfdmecag115 bbfekfm101 adabjaacefaaaaaadakbde",
    "edaa58 726 60 78 v630 D1132 229 fdcbiabLaaeab56 gapwigagagagagagagag80 a469 cyigebed86 fca90 ",
    "adeQa94 cdjFVpFjDhaoFjMo320 6592 64 22157 67 Tb269 cBtUpEb80 Mib103 b64 ebaaaexpacadawmfjZnXB",
    "jxfcaabaLjwyCgUBkfeayaOwcahdjfwcacXaacbbebaaaxcbkgclfbfbfigagaQanf115 mjf11172 lwdW8452 366 b",
    "106 Lgleeaajamaeaaababa108 G363 r64 b54 Nl116 ea135 sjgzfzk89 cfbfbfbcIlazasabaobnH123 lSl57 ",
    "qb244 CcWpAdJiDeLjDbJdhaeP158 bjfJdJdNhZlkaoagabakaoagab67 311 ivjhxfaPai69 fbaaRabcabwbEbLhi",
    "VsabeGdz70 56 dtbUodacaCjiwEaFFhaBfep54 jvbAezwg80 73 55 YmYgPlj294 EaPfb78 NhvkdArTBtwl53 zD",
    "abbamSFygjiJojdabahIcalVndkkaadtkray84 gaaadaoajgUqjkhbbbvagabaecarale158 53 rdejecDVtbaahj",
    "166 UOdJVtakjLQmagj54 Auldg185 R116 83 lhbabhabaxoaaanj70 hbMpaaaBajNgauakTsar73 263 iaKqaoCe",
    "D112 gabaLuaijffabaFnagj310 s189 aouQ922 102 111 q196 2636 97 o1071 4049 583 8633 569 gEajf",
    "79 ajfDrVpdljagaues688 87 105 75 ea66 m64 baaB6136 h1238 Pi8935 dagaba291 Scqdh396 2308 107 e",
    "mcigj5702 t108 y135 85 a71 abbabbbdalaaaga65 adbhagaBadaeaacga340 byayaEayaEayaEayaEayahbX",
    "1792 E481 Sjgbjda321 DrRdj1254 gadabaoa197 biV68 gadj791 59 acad76 Sao194 daAabaabaajadaaaafa",
    "daaaaaacabaabaaaaaaaaaabaabdagadadaaajaqecaeaq580 m2787 j1030 42720 F4153 g222 b5762 n7473 ",
    "3103 542 1506 4939 "]

/-- A letter or a number of any script, or the underscore. -/
def isWord (c : Char) : Bool :=
  if c.toNat < 0x80 then c.isAlphanum || c == '_' else inRuns wordRuns c.toNat

end Jade
