import Jade.Text.Runs

/-!
# Printable characters

A quoted text shows a printable character as itself and any other by its number. Separators other
than the blank, control and format characters, and code points that stand for nothing are not
printable. The table follows version 14 of the Unicode character database.
-/

namespace Jade

/-- Characters beyond ASCII that are not shown as themselves. -/
def unprintableRuns : List Nat :=
  runsOf [
    "128 Gla714 bfdgaaata397 aLbXbca55 hAdfqva192 aVb59 b101 n59 bWboaBbaakeEi74 a161 ahbbbvagaacd",
    "bibbbdhadbaebybcafdbbvagabababbaaedbbccagdaagqjcaiacavagabaebjacacbaodblggacahbbbvagabaebibbb",
    "cgcdbaebrjbafccadcbaaabcbcccldeccadbafanuemacawapbiacadgbacbabdbjgvacawajaebiacadgbfbadbjabmm",
    "acaYacafdpbzacarcxaiaabgcadfaaahfjbcl58 dCKbaaaeaxaaawbeaaafbjbdF72 aJdMaJaoamK198 aaeab377 a",
    "dbgaaadbOadbGadbgaaadboa57 adb67 bFczf86 bfb640 aBc89 gvixitlmacabl94 bjfjfnakf89 gQe70 jEald",
    "ldacPbekRdzfkc62 b65 aCbkfjfnbEW77 cUa116 h60 coc60 gQbkhQe534 bfbLbfbhaaaaaaaEb53 aoanbfasbc",
    "aiqxhUqbbAamcGoGo140 d663 yku1812 bFa349 eSaaeab56 gbnxigagagagagagagaga126 Hza89 l214 zle63 ",
    "a86 b103 eQa94 a84 lUa29293 c55 i348 t184 h203 ebaaaex59 cjf56 h70 hlf116 kDc78 akdGa55 inbjb",
    "103 xBjfbfbfigaga60 d126 bjf11172 lwdWd2048 6400 366 b106 Lgleezaeaaababa125 p445 b54 gaFPfYa",
    "saddea135 d190 cfbfbfbccgagmbblazasabaobnH123 ecdSc88 amcaUT130 CcWoBdJiDeQeDaKdnP158 bjfJdJd",
    "NhZklaoagabakaoagab67 311 ivjhxfaPai69 fbaaRabcabwa72 hiVsabeGcAea64 56 dtbXabehacaCbcdjgig",
    "64 FMdli54 cCbAezgdlg80 73 55 YmYgThj294 EaPacbb78 NhPvzLBtwi78 dJi62 aemygjf53 arhMi96 atkra",
    "R65 gaaadaoakf59 ejfdahbbbvagabaeajbbbcbafaegbgce139 92 aeD72 hj166 54 bLH69 kjfms58 fj54 Abo",
    "dw185 60 100 83 lhbabhabaDabblij70 hbTbkA72 h83 m73 263 iaSanjCcFbvan73 gabaRcaabaihjffabaKab",
    "afgj310 y183 aoXm923 102 111 aek196 2636 99 m1071 4049 583 8633 569 gEajd81 ajfDbfj70 jjagaue",
    "s688 91 101 75 d57 gq64 ekbn6136 h1238 Pi8935 dagaba291 Scqdh396 2308 107 emcigjbd4704 Tbwi",
    "116 60 246 jMb74 h112 u70 154 tl87 iy135 85 a71 abbabbbdalaaaga65 adbhagaBadaeaacga340 b292 b",
    "702 oeao1104 E225 gaqbgabae213 Scnbjdb320 Eq58 ea1248 gadabaoa197 bpO76 djdb785 68 76 61 194 ",
    "daAabaabaajadaaaafadaaaaaacabaabaaaaaaaaaabaabdagadadaaajaqecaeaqZb270 Rd100 loboaoaKj174 56 ",
    "CmRdigbnf154 984 epcmc116 l89 gldaold56 hjfNhDbb78 340 lnbececgiCckefjjfhhgi147 a55 Kj1030 ",
    "42720 F4153 g222 b5762 n7473 3103 542 1506 4939 716213 240 196112 "]

/-- The characters that a quoted text shows as themselves. -/
def isPrintable (c : Char) : Bool :=
  if c.toNat < 0x80 then 0x20 ≤ c.toNat && c.toNat < 0x7f
  else !inRuns unprintableRuns c.toNat

end Jade
