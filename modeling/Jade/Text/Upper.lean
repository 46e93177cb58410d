/-!
# Capital letters

Capital forms of characters and texts. Most characters have one capital; some have two or three
(the sharp s becomes `SS`). The tables follow version 14 of the Unicode character database.
-/

namespace Jade

/-- Runs of letters that follow their capitals, as the first and the last letter: every other code
point from the first on is such a letter. -/
def upperPairs : List (Nat × Nat) :=
  [(0x101, 0x12f), (0x133, 0x137), (0x13a, 0x148), (0x14b, 0x177), (0x17a, 0x17e), (0x183, 0x185),
   (0x188, 0x188), (0x18c, 0x18c), (0x192, 0x192), (0x199, 0x199), (0x1a1, 0x1a5), (0x1a8, 0x1a8),
   (0x1ad, 0x1ad), (0x1b0, 0x1b0), (0x1b4, 0x1b6), (0x1b9, 0x1b9), (0x1bd, 0x1bd), (0x1c5, 0x1c5),
   (0x1c8, 0x1c8), (0x1cb, 0x1cb), (0x1ce, 0x1dc), (0x1df, 0x1ef), (0x1f2, 0x1f2), (0x1f5, 0x1f5),
   (0x1f9, 0x21f), (0x223, 0x233), (0x23c, 0x23c), (0x242, 0x242), (0x247, 0x24f), (0x371, 0x373),
   (0x377, 0x377), (0x3d9, 0x3ef), (0x3f8, 0x3f8), (0x3fb, 0x3fb), (0x461, 0x481), (0x48b, 0x4bf),
   (0x4c2, 0x4ce), (0x4d1, 0x52f), (0x1e01, 0x1e95), (0x1ea1, 0x1eff), (0x2184, 0x2184),
   (0x2c61, 0x2c61), (0x2c68, 0x2c6c), (0x2c73, 0x2c73), (0x2c76, 0x2c76), (0x2c81, 0x2ce3),
   (0x2cec, 0x2cee), (0x2cf3, 0x2cf3), (0xa641, 0xa66d), (0xa681, 0xa69b), (0xa723, 0xa72f),
   (0xa733, 0xa76f), (0xa77a, 0xa77c), (0xa77f, 0xa787), (0xa78c, 0xa78c), (0xa791, 0xa793),
   (0xa797, 0xa7a9), (0xa7b5, 0xa7c3), (0xa7c8, 0xa7ca), (0xa7d1, 0xa7d1), (0xa7d7, 0xa7d9),
   (0xa7f6, 0xa7f6)]

/-- Runs of all other letters beyond ASCII: the first, how many there are, and the capital form of
the first. The forms of the others begin with the characters after its first one. -/
def upperRuns : List (Nat × Nat × List Nat) :=
  [(0xb5, 1, [0x39c]), (0xdf, 1, [0x53, 0x53]), (0xe0, 23, [0xc0]), (0xf8, 7, [0xd8]),
   (0xff, 1, [0x178]), (0x131, 1, [0x49]), (0x149, 1, [0x2bc, 0x4e]), (0x17f, 1, [0x53]),
   (0x180, 1, [0x243]), (0x195, 1, [0x1f6]), (0x19a, 1, [0x23d]), (0x19e, 1, [0x220]),
   (0x1bf, 1, [0x1f7]), (0x1c6, 1, [0x1c4]), (0x1c9, 1, [0x1c7]), (0x1cc, 1, [0x1ca]),
   (0x1dd, 1, [0x18e]), (0x1f0, 1, [0x4a, 0x30c]), (0x1f3, 1, [0x1f1]), (0x23f, 2, [0x2c7e]),
   (0x250, 1, [0x2c6f]), (0x251, 1, [0x2c6d]), (0x252, 1, [0x2c70]), (0x253, 1, [0x181]),
   (0x254, 1, [0x186]), (0x256, 2, [0x189]), (0x259, 1, [0x18f]), (0x25b, 1, [0x190]),
   (0x25c, 1, [0xa7ab]), (0x260, 1, [0x193]), (0x261, 1, [0xa7ac]), (0x263, 1, [0x194]),
   (0x265, 1, [0xa78d]), (0x266, 1, [0xa7aa]), (0x268, 1, [0x197]), (0x269, 1, [0x196]),
   (0x26a, 1, [0xa7ae]), (0x26b, 1, [0x2c62]), (0x26c, 1, [0xa7ad]), (0x26f, 1, [0x19c]),
   (0x271, 1, [0x2c6e]), (0x272, 1, [0x19d]), (0x275, 1, [0x19f]), (0x27d, 1, [0x2c64]),
   (0x280, 1, [0x1a6]), (0x282, 1, [0xa7c5]), (0x283, 1, [0x1a9]), (0x287, 1, [0xa7b1]),
   (0x288, 1, [0x1ae]), (0x289, 1, [0x244]), (0x28a, 2, [0x1b1]), (0x28c, 1, [0x245]),
   (0x292, 1, [0x1b7]), (0x29d, 1, [0xa7b2]), (0x29e, 1, [0xa7b0]), (0x345, 1, [0x399]),
   (0x37b, 3, [0x3fd]), (0x390, 1, [0x399, 0x308, 0x301]), (0x3ac, 1, [0x386]), (0x3ad, 3, [0x388]),
   (0x3b0, 1, [0x3a5, 0x308, 0x301]), (0x3b1, 17, [0x391]), (0x3c2, 1, [0x3a3]),
   (0x3c3, 9, [0x3a3]), (0x3cc, 1, [0x38c]), (0x3cd, 2, [0x38e]), (0x3d0, 1, [0x392]),
   (0x3d1, 1, [0x398]), (0x3d5, 1, [0x3a6]), (0x3d6, 1, [0x3a0]), (0x3d7, 1, [0x3cf]),
   (0x3f0, 1, [0x39a]), (0x3f1, 1, [0x3a1]), (0x3f2, 1, [0x3f9]), (0x3f3, 1, [0x37f]),
   (0x3f5, 1, [0x395]), (0x430, 32, [0x410]), (0x450, 16, [0x400]), (0x4cf, 1, [0x4c0]),
   (0x561, 38, [0x531]), (0x587, 1, [0x535, 0x552]), (0x10d0, 43, [0x1c90]), (0x10fd, 3, [0x1cbd]),
   (0x13f8, 6, [0x13f0]), (0x1c80, 1, [0x412]), (0x1c81, 1, [0x414]), (0x1c82, 1, [0x41e]),
   (0x1c83, 2, [0x421]), (0x1c85, 1, [0x422]), (0x1c86, 1, [0x42a]), (0x1c87, 1, [0x462]),
   (0x1c88, 1, [0xa64a]), (0x1d79, 1, [0xa77d]), (0x1d7d, 1, [0x2c63]), (0x1d8e, 1, [0xa7c6]),
   (0x1e96, 1, [0x48, 0x331]), (0x1e97, 1, [0x54, 0x308]), (0x1e98, 1, [0x57, 0x30a]),
   (0x1e99, 1, [0x59, 0x30a]), (0x1e9a, 1, [0x41, 0x2be]), (0x1e9b, 1, [0x1e60]),
   (0x1f00, 8, [0x1f08]), (0x1f10, 6, [0x1f18]), (0x1f20, 8, [0x1f28]), (0x1f30, 8, [0x1f38]),
   (0x1f40, 6, [0x1f48]), (0x1f50, 1, [0x3a5, 0x313]), (0x1f51, 1, [0x1f59]),
   (0x1f52, 1, [0x3a5, 0x313, 0x300]), (0x1f53, 1, [0x1f5b]), (0x1f54, 1, [0x3a5, 0x313, 0x301]),
   (0x1f55, 1, [0x1f5d]), (0x1f56, 1, [0x3a5, 0x313, 0x342]), (0x1f57, 1, [0x1f5f]),
   (0x1f60, 8, [0x1f68]), (0x1f70, 2, [0x1fba]), (0x1f72, 4, [0x1fc8]), (0x1f76, 2, [0x1fda]),
   (0x1f78, 2, [0x1ff8]), (0x1f7a, 2, [0x1fea]), (0x1f7c, 2, [0x1ffa]),
   (0x1f80, 8, [0x1f08, 0x399]), (0x1f88, 8, [0x1f08, 0x399]), (0x1f90, 8, [0x1f28, 0x399]),
   (0x1f98, 8, [0x1f28, 0x399]), (0x1fa0, 8, [0x1f68, 0x399]), (0x1fa8, 8, [0x1f68, 0x399]),
   (0x1fb0, 2, [0x1fb8]), (0x1fb2, 1, [0x1fba, 0x399]), (0x1fb3, 1, [0x391, 0x399]),
   (0x1fb4, 1, [0x386, 0x399]), (0x1fb6, 1, [0x391, 0x342]), (0x1fb7, 1, [0x391, 0x342, 0x399]),
   (0x1fbc, 1, [0x391, 0x399]), (0x1fbe, 1, [0x399]), (0x1fc2, 1, [0x1fca, 0x399]),
   (0x1fc3, 1, [0x397, 0x399]), (0x1fc4, 1, [0x389, 0x399]), (0x1fc6, 1, [0x397, 0x342]),
   (0x1fc7, 1, [0x397, 0x342, 0x399]), (0x1fcc, 1, [0x397, 0x399]), (0x1fd0, 2, [0x1fd8]),
   (0x1fd2, 1, [0x399, 0x308, 0x300]), (0x1fd3, 1, [0x399, 0x308, 0x301]),
   (0x1fd6, 1, [0x399, 0x342]), (0x1fd7, 1, [0x399, 0x308, 0x342]), (0x1fe0, 2, [0x1fe8]),
   (0x1fe2, 1, [0x3a5, 0x308, 0x300]), (0x1fe3, 1, [0x3a5, 0x308, 0x301]),
   (0x1fe4, 1, [0x3a1, 0x313]), (0x1fe5, 1, [0x1fec]), (0x1fe6, 1, [0x3a5, 0x342]),
   (0x1fe7, 1, [0x3a5, 0x308, 0x342]), (0x1ff2, 1, [0x1ffa, 0x399]), (0x1ff3, 1, [0x3a9, 0x399]),
   (0x1ff4, 1, [0x38f, 0x399]), (0x1ff6, 1, [0x3a9, 0x342]), (0x1ff7, 1, [0x3a9, 0x342, 0x399]),
   (0x1ffc, 1, [0x3a9, 0x399]), (0x214e, 1, [0x2132]), (0x2170, 16, [0x2160]),
   (0x24d0, 26, [0x24b6]), (0x2c30, 48, [0x2c00]), (0x2c65, 1, [0x23a]), (0x2c66, 1, [0x23e]),
   (0x2d00, 38, [0x10a0]), (0x2d27, 1, [0x10c7]), (0x2d2d, 1, [0x10cd]), (0xa794, 1, [0xa7c4]),
   (0xab53, 1, [0xa7b3]), (0xab70, 80, [0x13a0]), (0xfb00, 1, [0x46, 0x46]),
   (0xfb01, 1, [0x46, 0x49]), (0xfb02, 1, [0x46, 0x4c]), (0xfb03, 1, [0x46, 0x46, 0x49]),
   (0xfb04, 1, [0x46, 0x46, 0x4c]), (0xfb05, 1, [0x53, 0x54]), (0xfb06, 1, [0x53, 0x54]),
   (0xfb13, 1, [0x544, 0x546]), (0xfb14, 1, [0x544, 0x535]), (0xfb15, 1, [0x544, 0x53b]),
   (0xfb16, 1, [0x54e, 0x546]), (0xfb17, 1, [0x544, 0x53d]), (0xff41, 26, [0xff21]),
   (0x10428, 40, [0x10400]), (0x104d8, 36, [0x104b0]), (0x10597, 11, [0x10570]),
   (0x105a3, 15, [0x1057c]), (0x105b3, 7, [0x1058c]), (0x105bb, 2, [0x10594]),
   (0x10cc0, 51, [0x10c80]), (0x118c0, 32, [0x118a0]), (0x16e60, 32, [0x16e40]),
   (0x1e922, 34, [0x1e900])]

def upperChar (c : Char) : List Char :=
  let n := c.toNat
  if n < 0x80 then [c.toUpper]
  else if upperPairs.any fun (first, last) => first ≤ n && n ≤ last && (n - first) % 2 == 0 then
    [Char.ofNat (n - 1)]
  else match upperRuns.find? fun (first, count, _) => first ≤ n && n < first + count with
    | some (first, _, capital :: more) => ((capital + (n - first)) :: more).map Char.ofNat
    | _ => [c]

def upper (s : String) : String := String.ofList (s.toList.flatMap upperChar)

end Jade
