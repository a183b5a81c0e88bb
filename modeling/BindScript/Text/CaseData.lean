/-
**Case data of Unicode.**

Simple case mappings as runs of equally spaced code points that share one distance, the mappings to
several characters, and the stretches of the properties `Cased` and `Case_Ignorable`, which decide
the form of a final sigma.  Runs and stretches are given by how far they are apart and how long they
are.
-/

namespace BindScript.Text

/-- Code points that are mapped alike, after those of the runs before: how many are passed over, how
many are mapped, the distance between neighbours, and that from a code point to its image. -/
abbrev CaseRun := Nat × Nat × Nat × Int

/-- The simple mappings to lower case. -/
def lowerRuns : List CaseRun :=
  [(65, 26, 1, 32), (101, 23, 1, 32), (1, 7, 1, 32), (33, 24, 2, 1), (3, 3, 2, 1), (2, 8, 2, 1),
    (2, 23, 2, 1), (1, 1, 1, -121), (0, 3, 2, 1), (3, 1, 1, 210), (0, 2, 2, 1), (1, 1, 1, 206),
    (0, 1, 1, 1), (1, 2, 1, 205), (0, 1, 1, 1), (2, 1, 1, 79), (0, 1, 1, 202), (0, 1, 1, 203),
    (0, 1, 1, 1), (1, 1, 1, 205), (0, 1, 1, 207), (1, 1, 1, 211), (0, 1, 1, 209), (0, 1, 1, 1),
    (3, 1, 1, 211), (0, 1, 1, 213), (1, 1, 1, 214), (0, 3, 2, 1), (1, 1, 1, 218), (0, 1, 1, 1),
    (1, 1, 1, 218), (2, 1, 1, 1), (1, 1, 1, 218), (0, 1, 1, 1), (1, 2, 1, 217), (0, 2, 2, 1),
    (1, 1, 1, 219), (0, 1, 1, 1), (3, 1, 1, 1), (7, 1, 1, 2), (0, 1, 1, 1), (1, 1, 1, 2),
    (0, 1, 1, 1), (1, 1, 1, 2), (0, 9, 2, 1), (2, 9, 2, 1), (2, 1, 1, 2), (0, 2, 2, 1),
    (1, 1, 1, -97), (0, 1, 1, -56), (0, 20, 2, 1), (1, 1, 1, -130), (1, 9, 2, 1), (7, 1, 1, 10795),
    (0, 1, 1, 1), (1, 1, 1, -163), (0, 1, 1, 10792), (2, 1, 1, 1), (1, 1, 1, -195), (0, 1, 1, 69),
    (0, 1, 1, 71), (0, 5, 2, 1), (289, 2, 2, 1), (3, 1, 1, 1), (8, 1, 1, 116), (6, 1, 1, 38),
    (1, 3, 1, 37), (1, 1, 1, 64), (1, 2, 1, 63), (1, 17, 1, 32), (1, 9, 1, 32), (35, 1, 1, 8),
    (8, 12, 2, 1), (5, 1, 1, -60), (2, 1, 1, 1), (1, 1, 1, -7), (0, 1, 1, 1), (2, 3, 1, -130),
    (0, 16, 1, 80), (0, 32, 1, 32), (48, 17, 2, 1), (9, 27, 2, 1), (1, 1, 1, 15), (0, 7, 2, 1),
    (2, 48, 2, 1), (2, 38, 1, 48), (2889, 38, 1, 7264), (1, 1, 1, 7264), (5, 1, 1, 7264),
    (722, 80, 1, 38864), (0, 6, 1, 8), (2195, 1, 1, 1), (6, 43, 1, -3008), (2, 3, 1, -3008),
    (320, 75, 2, 1), (9, 1, 1, -7615), (1, 48, 2, 1), (9, 8, 1, -8), (8, 6, 1, -8), (10, 8, 1, -8),
    (8, 8, 1, -8), (8, 6, 1, -8), (11, 4, 2, -8), (8, 8, 1, -8), (24, 8, 1, -8), (8, 8, 1, -8),
    (8, 8, 1, -8), (8, 2, 1, -8), (0, 2, 1, -74), (0, 1, 1, -9), (11, 4, 1, -86), (0, 1, 1, -9),
    (11, 2, 1, -8), (0, 2, 1, -100), (12, 2, 1, -8), (0, 2, 1, -112), (0, 1, 1, -7),
    (11, 2, 1, -128), (0, 2, 1, -126), (0, 1, 1, -9), (297, 1, 1, -7517), (3, 1, 1, -8383),
    (0, 1, 1, -8262), (6, 1, 1, 28), (45, 16, 1, 16), (19, 1, 1, 1), (818, 26, 1, 26),
    (1840, 48, 1, 48), (48, 1, 1, 1), (1, 1, 1, -10743), (0, 1, 1, -3814), (0, 1, 1, -10727),
    (2, 3, 2, 1), (1, 1, 1, -10780), (0, 1, 1, -10749), (0, 1, 1, -10783), (0, 1, 1, -10782),
    (1, 1, 1, 1), (2, 1, 1, 1), (8, 2, 1, -10815), (0, 50, 2, 1), (8, 2, 2, 1), (4, 1, 1, 1),
    (31053, 23, 2, 1), (19, 14, 2, 1), (135, 7, 2, 1), (3, 31, 2, 1), (10, 2, 2, 1),
    (1, 1, 1, -35332), (0, 5, 2, 1), (4, 1, 1, 1), (1, 1, 1, -42280), (2, 2, 2, 1), (3, 10, 2, 1),
    (1, 1, 1, -42308), (0, 1, 1, -42319), (0, 1, 1, -42315), (0, 1, 1, -42305), (0, 1, 1, -42308),
    (1, 1, 1, -42258), (0, 1, 1, -42282), (0, 1, 1, -42261), (0, 1, 1, 928), (0, 8, 2, 1),
    (1, 1, 1, -48), (0, 1, 1, -42307), (0, 1, 1, -35384), (0, 2, 2, 1), (1, 1, 1, -42343),
    (0, 8, 2, 1), (1, 1, 1, -42561), (24, 1, 1, 1), (22315, 26, 1, 32), (1221, 40, 1, 40),
    (136, 36, 1, 40), (156, 1, 2, 39), (0, 10, 1, 39), (1, 1, 1, 39), (0, 14, 1, 39), (1, 1, 1, 39),
    (0, 6, 1, 39), (1, 1, 1, 39), (0, 1, 1, 39), (1770, 51, 1, 64), (157, 22, 1, 32),
    (2874, 32, 1, 32), (21888, 32, 1, 32), (64, 25, 1, 27), (31303, 34, 1, 34)]

/-- The simple mappings to upper case. -/
def upperRuns : List CaseRun :=
  [(97, 26, 1, -32), (58, 1, 1, 743), (42, 23, 1, -32), (1, 7, 1, -32), (0, 1, 1, 121),
    (1, 24, 2, -1), (1, 1, 1, -232), (1, 3, 2, -1), (2, 8, 2, -1), (2, 23, 2, -1), (2, 3, 2, -1),
    (0, 1, 1, -300), (0, 1, 1, 195), (2, 2, 2, -1), (2, 1, 1, -1), (3, 1, 1, -1), (5, 1, 1, -1),
    (2, 1, 1, 97), (3, 1, 1, -1), (0, 1, 1, 163), (0, 1, 1, 42561), (2, 1, 1, 130), (2, 3, 2, -1),
    (2, 1, 1, -1), (4, 1, 1, -1), (2, 1, 1, -1), (3, 2, 2, -1), (2, 1, 1, -1), (3, 1, 1, -1),
    (1, 1, 1, 56), (5, 1, 1, -1), (0, 1, 1, -2), (1, 1, 1, -1), (0, 1, 1, -2), (1, 1, 1, -1),
    (0, 1, 1, -2), (1, 8, 2, -1), (0, 1, 1, -79), (1, 9, 2, -1), (2, 1, 1, -1), (0, 1, 1, -2),
    (1, 1, 1, -1), (3, 20, 2, -1), (3, 9, 2, -1), (8, 1, 1, -1), (2, 2, 1, 10815), (1, 1, 1, -1),
    (4, 5, 2, -1), (0, 1, 1, 10783), (0, 1, 1, 10780), (0, 1, 1, 10782), (0, 1, 1, -210),
    (0, 1, 1, -206), (1, 2, 1, -205), (1, 1, 1, -202), (1, 1, 1, -203), (0, 1, 1, 42319),
    (3, 1, 1, -205), (0, 1, 1, 42315), (1, 1, 1, -207), (0, 1, 1, 42343), (0, 1, 1, 42280),
    (0, 1, 1, 42308), (1, 1, 1, -209), (0, 1, 1, -211), (0, 1, 1, 42308), (0, 1, 1, 10743),
    (0, 1, 1, 42305), (2, 1, 1, -211), (1, 1, 1, 10749), (0, 1, 1, -213), (2, 1, 1, -214),
    (7, 1, 1, 10727), (2, 1, 1, -218), (1, 1, 1, 42307), (0, 1, 1, -218), (3, 1, 1, 42282),
    (0, 1, 1, -218), (0, 1, 1, -69), (0, 2, 1, -217), (0, 1, 1, -71), (5, 1, 1, -219),
    (10, 1, 1, 42261), (0, 1, 1, 42258), (166, 1, 1, 84), (43, 2, 2, -1), (3, 1, 1, -1),
    (3, 3, 1, 130), (46, 1, 1, -38), (0, 3, 1, -37), (1, 17, 1, -32), (0, 1, 1, -31),
    (0, 9, 1, -32), (0, 1, 1, -64), (0, 2, 1, -63), (1, 1, 1, -62), (0, 1, 1, -57), (3, 1, 1, -47),
    (0, 1, 1, -54), (0, 1, 1, -8), (1, 12, 2, -1), (0, 1, 1, -86), (0, 1, 1, -80), (0, 1, 1, 7),
    (0, 1, 1, -116), (1, 1, 1, -96), (2, 1, 1, -1), (2, 1, 1, -1), (52, 32, 1, -32),
    (0, 16, 1, -80), (1, 17, 2, -1), (9, 27, 2, -1), (2, 7, 2, -1), (0, 1, 1, -15), (1, 48, 2, -1),
    (49, 38, 1, -48), (2889, 43, 1, 3008), (2, 3, 1, 3008), (760, 6, 1, -8), (2178, 1, 1, -6254),
    (0, 1, 1, -6253), (0, 1, 1, -6244), (0, 2, 1, -6242), (0, 1, 1, -6243), (0, 1, 1, -6236),
    (0, 1, 1, -6181), (0, 1, 1, 35266), (1, 1, 1, -1), (238, 1, 1, 35332), (3, 1, 1, 3814),
    (16, 1, 1, 35384), (114, 75, 2, -1), (5, 1, 1, -59), (5, 48, 2, -1), (0, 8, 1, 8), (8, 6, 1, 8),
    (10, 8, 1, 8), (8, 8, 1, 8), (8, 6, 1, 8), (11, 4, 2, 8), (8, 8, 1, 8), (8, 2, 1, 74),
    (0, 4, 1, 86), (0, 2, 1, 100), (0, 2, 1, 128), (0, 2, 1, 112), (0, 2, 1, 126), (50, 2, 1, 8),
    (12, 1, 1, -7205), (17, 2, 1, 8), (14, 2, 1, 8), (3, 1, 1, 7), (360, 1, 1, -28),
    (33, 16, 1, -16), (4, 1, 1, -1), (843, 26, 1, -26), (1862, 48, 1, -48), (1, 1, 1, -1),
    (3, 1, 1, -10795), (0, 1, 1, -10792), (1, 3, 2, -1), (6, 1, 1, -1), (2, 1, 1, -1),
    (10, 50, 2, -1), (8, 2, 2, -1), (4, 1, 1, -1), (12, 38, 1, -7264), (1, 1, 1, -7264),
    (5, 1, 1, -7264), (30995, 23, 2, -1), (19, 14, 2, -1), (135, 7, 2, -1), (3, 31, 2, -1),
    (10, 2, 2, -1), (2, 5, 2, -1), (4, 1, 1, -1), (4, 2, 2, -1), (0, 1, 1, 48), (2, 10, 2, -1),
    (11, 8, 2, -1), (4, 2, 2, -1), (2, 8, 2, -1), (26, 1, 1, -1), (860, 1, 1, -928),
    (28, 80, 1, -38864), (21377, 26, 1, -32), (1229, 40, 1, -40), (136, 36, 1, -40),
    (155, 1, 2, -39), (0, 10, 1, -39), (1, 1, 1, -39), (0, 14, 1, -39), (1, 1, 1, -39),
    (0, 6, 1, -39), (1, 1, 1, -39), (0, 1, 1, -39), (1795, 51, 1, -64), (125, 22, 1, -32),
    (2874, 32, 1, -32), (21888, 32, 1, -32), (59, 25, 1, -27), (31310, 34, 1, -34)]

/-- The characters whose lower case has several characters. -/
def lowerSpecial : List (Nat × List Nat) :=
  [ (0x130, [0x69, 0x307])]

/-- The characters whose upper case has several characters. -/
def upperSpecial : List (Nat × List Nat) :=
  [ (0xDF, [0x53, 0x53]), (0x149, [0x2BC, 0x4E]), (0x1F0, [0x4A, 0x30C]),
    (0x390, [0x399, 0x308, 0x301]), (0x3B0, [0x3A5, 0x308, 0x301]), (0x587, [0x535, 0x552]),
    (0x1E96, [0x48, 0x331]), (0x1E97, [0x54, 0x308]), (0x1E98, [0x57, 0x30A]),
    (0x1E99, [0x59, 0x30A]), (0x1E9A, [0x41, 0x2BE]), (0x1F50, [0x3A5, 0x313]),
    (0x1F52, [0x3A5, 0x313, 0x300]), (0x1F54, [0x3A5, 0x313, 0x301]),
    (0x1F56, [0x3A5, 0x313, 0x342]), (0x1F80, [0x1F08, 0x399]), (0x1F81, [0x1F09, 0x399]),
    (0x1F82, [0x1F0A, 0x399]), (0x1F83, [0x1F0B, 0x399]), (0x1F84, [0x1F0C, 0x399]),
    (0x1F85, [0x1F0D, 0x399]), (0x1F86, [0x1F0E, 0x399]), (0x1F87, [0x1F0F, 0x399]),
    (0x1F88, [0x1F08, 0x399]), (0x1F89, [0x1F09, 0x399]), (0x1F8A, [0x1F0A, 0x399]),
    (0x1F8B, [0x1F0B, 0x399]), (0x1F8C, [0x1F0C, 0x399]), (0x1F8D, [0x1F0D, 0x399]),
    (0x1F8E, [0x1F0E, 0x399]), (0x1F8F, [0x1F0F, 0x399]), (0x1F90, [0x1F28, 0x399]),
    (0x1F91, [0x1F29, 0x399]), (0x1F92, [0x1F2A, 0x399]), (0x1F93, [0x1F2B, 0x399]),
    (0x1F94, [0x1F2C, 0x399]), (0x1F95, [0x1F2D, 0x399]), (0x1F96, [0x1F2E, 0x399]),
    (0x1F97, [0x1F2F, 0x399]), (0x1F98, [0x1F28, 0x399]), (0x1F99, [0x1F29, 0x399]),
    (0x1F9A, [0x1F2A, 0x399]), (0x1F9B, [0x1F2B, 0x399]), (0x1F9C, [0x1F2C, 0x399]),
    (0x1F9D, [0x1F2D, 0x399]), (0x1F9E, [0x1F2E, 0x399]), (0x1F9F, [0x1F2F, 0x399]),
    (0x1FA0, [0x1F68, 0x399]), (0x1FA1, [0x1F69, 0x399]), (0x1FA2, [0x1F6A, 0x399]),
    (0x1FA3, [0x1F6B, 0x399]), (0x1FA4, [0x1F6C, 0x399]), (0x1FA5, [0x1F6D, 0x399]),
    (0x1FA6, [0x1F6E, 0x399]), (0x1FA7, [0x1F6F, 0x399]), (0x1FA8, [0x1F68, 0x399]),
    (0x1FA9, [0x1F69, 0x399]), (0x1FAA, [0x1F6A, 0x399]), (0x1FAB, [0x1F6B, 0x399]),
    (0x1FAC, [0x1F6C, 0x399]), (0x1FAD, [0x1F6D, 0x399]), (0x1FAE, [0x1F6E, 0x399]),
    (0x1FAF, [0x1F6F, 0x399]), (0x1FB2, [0x1FBA, 0x399]), (0x1FB3, [0x391, 0x399]),
    (0x1FB4, [0x386, 0x399]), (0x1FB6, [0x391, 0x342]), (0x1FB7, [0x391, 0x342, 0x399]),
    (0x1FBC, [0x391, 0x399]), (0x1FC2, [0x1FCA, 0x399]), (0x1FC3, [0x397, 0x399]),
    (0x1FC4, [0x389, 0x399]), (0x1FC6, [0x397, 0x342]), (0x1FC7, [0x397, 0x342, 0x399]),
    (0x1FCC, [0x397, 0x399]), (0x1FD2, [0x399, 0x308, 0x300]), (0x1FD3, [0x399, 0x308, 0x301]),
    (0x1FD6, [0x399, 0x342]), (0x1FD7, [0x399, 0x308, 0x342]), (0x1FE2, [0x3A5, 0x308, 0x300]),
    (0x1FE3, [0x3A5, 0x308, 0x301]), (0x1FE4, [0x3A1, 0x313]), (0x1FE6, [0x3A5, 0x342]),
    (0x1FE7, [0x3A5, 0x308, 0x342]), (0x1FF2, [0x1FFA, 0x399]), (0x1FF3, [0x3A9, 0x399]),
    (0x1FF4, [0x38F, 0x399]), (0x1FF6, [0x3A9, 0x342]), (0x1FF7, [0x3A9, 0x342, 0x399]),
    (0x1FFC, [0x3A9, 0x399]), (0xFB00, [0x46, 0x46]), (0xFB01, [0x46, 0x49]),
    (0xFB02, [0x46, 0x4C]), (0xFB03, [0x46, 0x46, 0x49]), (0xFB04, [0x46, 0x46, 0x4C]),
    (0xFB05, [0x53, 0x54]), (0xFB06, [0x53, 0x54]), (0xFB13, [0x544, 0x546]),
    (0xFB14, [0x544, 0x535]), (0xFB15, [0x544, 0x53B]), (0xFB16, [0x54E, 0x546]),
    (0xFB17, [0x544, 0x53D])]

/-- How many code points are not cased, then how many are, and so on in turn. -/
def casedStretches : List Nat :=
  [65, 26, 6, 26, 47, 1, 10, 1, 4, 1, 5, 23, 1, 31, 1, 195, 1, 4, 4, 208, 2, 35, 7, 2, 30, 5, 96, 1,
    42, 4, 2, 2, 2, 4, 1, 1, 6, 1, 1, 3, 1, 1, 1, 20, 1, 83, 1, 139, 8, 166, 1, 38, 9, 41, 2839, 38,
    1, 1, 5, 1, 2, 43, 1, 4, 672, 86, 2, 6, 2178, 11, 5, 43, 2, 3, 64, 192, 64, 278, 2, 6, 2, 38, 2,
    6, 2, 8, 1, 1, 1, 1, 1, 1, 1, 31, 2, 53, 1, 7, 1, 1, 3, 3, 1, 7, 3, 4, 2, 6, 4, 13, 5, 3, 1, 7,
    116, 1, 13, 1, 16, 13, 101, 1, 4, 1, 2, 10, 1, 1, 3, 5, 6, 1, 1, 1, 1, 1, 1, 4, 1, 6, 4, 1, 2,
    4, 5, 5, 4, 1, 17, 32, 3, 2, 817, 52, 1814, 229, 6, 4, 3, 2, 12, 38, 1, 1, 5, 1, 30994, 46, 18,
    30, 132, 102, 3, 4, 1, 77, 20, 6, 1, 3, 821, 43, 1, 14, 6, 80, 20288, 7, 12, 5, 1033, 26, 6, 26,
    1189, 80, 96, 36, 4, 36, 116, 11, 1, 15, 1, 7, 1, 2, 1, 11, 1, 15, 1, 7, 1, 2, 451, 1, 2, 3, 1,
    42, 1, 9, 1221, 51, 13, 51, 93, 22, 10, 22, 2842, 64, 21856, 64, 32, 25, 2, 25, 25900, 85, 1,
    71, 1, 2, 2, 1, 2, 2, 2, 4, 1, 12, 1, 1, 1, 7, 1, 65, 1, 4, 2, 8, 1, 7, 1, 28, 1, 4, 1, 5, 1, 1,
    3, 7, 1, 340, 2, 25, 1, 25, 1, 31, 1, 25, 1, 31, 1, 25, 1, 31, 1, 25, 1, 31, 1, 25, 1, 8, 1844,
    10, 1, 20, 6, 6, 261, 62, 2194, 68, 2028, 26, 6, 26, 6, 26]

/-- How many code points are not case-ignorable, then how many are, and so on in turn. -/
def caseIgnorableStretches : List Nat :=
  [39, 1, 6, 1, 11, 1, 35, 1, 1, 1, 71, 1, 4, 1, 1, 1, 4, 1, 2, 2, 503, 192, 4, 2, 4, 1, 9, 2, 1, 1,
    251, 7, 207, 1, 5, 1, 49, 45, 1, 1, 1, 2, 1, 2, 1, 1, 44, 1, 11, 6, 10, 11, 1, 1, 35, 1, 10, 21,
    16, 1, 101, 8, 1, 10, 1, 4, 33, 1, 1, 1, 30, 27, 91, 11, 58, 11, 4, 1, 2, 1, 24, 24, 43, 3, 44,
    1, 7, 2, 5, 9, 41, 58, 55, 1, 1, 1, 4, 8, 4, 1, 3, 7, 10, 2, 13, 1, 15, 1, 58, 1, 4, 4, 8, 1,
    20, 2, 26, 1, 2, 2, 57, 1, 4, 2, 4, 2, 2, 3, 3, 1, 30, 2, 3, 1, 11, 2, 57, 1, 4, 5, 1, 2, 4, 1,
    20, 2, 22, 6, 1, 1, 58, 1, 2, 1, 1, 4, 8, 1, 7, 2, 11, 2, 30, 1, 61, 1, 12, 1, 50, 1, 3, 1, 55,
    1, 1, 3, 5, 3, 1, 4, 7, 2, 11, 2, 29, 1, 58, 1, 2, 1, 6, 1, 5, 2, 20, 2, 28, 2, 57, 2, 4, 4, 8,
    1, 20, 2, 29, 1, 72, 1, 7, 3, 1, 1, 90, 1, 2, 7, 11, 9, 98, 1, 2, 9, 9, 1, 1, 7, 73, 2, 27, 1,
    1, 1, 1, 1, 55, 14, 1, 5, 1, 2, 5, 11, 1, 36, 9, 1, 102, 4, 1, 6, 1, 2, 2, 2, 25, 2, 4, 3, 16,
    4, 13, 1, 2, 2, 6, 1, 15, 1, 94, 1, 608, 3, 946, 3, 29, 2, 30, 2, 30, 2, 64, 2, 1, 7, 8, 1, 2,
    11, 3, 1, 5, 1, 45, 5, 51, 1, 65, 2, 34, 1, 118, 3, 4, 2, 9, 1, 6, 3, 219, 2, 2, 1, 58, 1, 1, 7,
    1, 1, 1, 1, 2, 8, 6, 10, 2, 1, 39, 1, 8, 46, 2, 12, 20, 4, 48, 1, 1, 5, 1, 1, 5, 1, 40, 9, 12,
    2, 32, 4, 2, 2, 1, 3, 56, 1, 1, 2, 3, 1, 1, 3, 58, 8, 2, 2, 64, 6, 82, 3, 1, 13, 1, 7, 4, 1, 6,
    1, 3, 2, 50, 63, 13, 1, 34, 101, 445, 1, 1, 3, 11, 3, 13, 3, 13, 3, 13, 2, 12, 5, 8, 2, 10, 1,
    2, 1, 2, 5, 49, 5, 1, 10, 1, 1, 13, 1, 16, 13, 51, 33, 2955, 2, 113, 3, 125, 1, 15, 1, 96, 32,
    47, 1, 469, 1, 36, 4, 3, 5, 5, 1, 93, 6, 93, 3, 28438, 1, 1250, 6, 270, 1, 98, 4, 1, 10, 1, 1,
    28, 4, 80, 2, 14, 34, 78, 1, 23, 3, 102, 4, 3, 2, 8, 1, 3, 1, 4, 1, 25, 2, 5, 1, 151, 2, 26, 18,
    13, 1, 38, 8, 25, 11, 46, 3, 48, 1, 2, 4, 2, 2, 17, 1, 21, 2, 66, 6, 2, 2, 2, 2, 12, 1, 8, 1,
    35, 1, 11, 1, 51, 1, 1, 3, 2, 2, 5, 2, 1, 1, 27, 1, 14, 2, 5, 2, 1, 1, 100, 5, 9, 3, 121, 1, 2,
    1, 4, 1, 20272, 1, 147, 17, 573, 16, 3, 1, 12, 16, 34, 1, 2, 1, 169, 1, 7, 1, 6, 1, 11, 1, 35,
    1, 1, 1, 47, 1, 45, 2, 67, 1, 21, 3, 513, 1, 226, 1, 149, 5, 1029, 6, 1, 42, 1, 9, 582, 3, 1, 2,
    5, 4, 40, 3, 4, 1, 165, 2, 573, 4, 38, 1, 26, 5, 1, 1, 315, 2, 24, 1, 52, 6, 70, 11, 49, 4, 123,
    1, 54, 15, 41, 1, 2, 2, 10, 3, 49, 4, 2, 2, 2, 1, 4, 1, 10, 1, 50, 3, 36, 5, 1, 8, 62, 1, 12, 2,
    52, 9, 10, 4, 2, 1, 95, 3, 2, 1, 1, 2, 6, 1, 2, 1, 157, 1, 3, 8, 21, 2, 57, 2, 3, 1, 37, 7, 3,
    5, 70, 6, 13, 1, 1, 1, 1, 1, 14, 2, 85, 8, 2, 3, 1, 1, 23, 1, 84, 6, 1, 1, 4, 2, 1, 2, 238, 4,
    6, 2, 1, 2, 27, 2, 85, 8, 2, 1, 1, 2, 106, 1, 1, 1, 2, 6, 1, 1, 101, 1, 1, 1, 2, 4, 1, 5, 259,
    9, 1, 2, 256, 2, 1, 1, 4, 1, 144, 4, 2, 2, 4, 1, 32, 10, 40, 6, 2, 4, 8, 1, 9, 6, 2, 3, 46, 13,
    1, 2, 198, 1, 1, 3, 1, 1, 201, 7, 1, 6, 1, 1, 82, 22, 2, 7, 1, 2, 1, 2, 122, 6, 3, 1, 1, 2, 1,
    7, 1, 1, 72, 2, 3, 1, 1, 1, 65, 1, 281, 2, 11, 2, 52, 5, 5, 1, 1, 1, 23, 1, 5333, 17, 6, 15,
    11464, 12, 3, 3, 2496, 5, 59, 7, 9, 4, 508, 3, 40, 2, 482, 1, 63, 17, 64, 2, 1, 2, 13, 2, 16380,
    4, 1, 7, 1, 2, 3230, 2, 1, 4, 4700, 46, 2, 23, 544, 3, 9, 16, 2, 7, 30, 4, 148, 3, 1979, 55, 4,
    50, 8, 1, 14, 1, 22, 5, 1, 15, 1360, 7, 1, 17, 2, 7, 1, 2, 1, 5, 5, 62, 33, 1, 160, 14, 368, 1,
    61, 4, 507, 5, 254, 2, 243, 1, 2, 1, 7, 2, 5, 1, 9, 1, 464, 7, 109, 8, 2735, 5, 789505, 1, 30,
    96, 128, 240]

end BindScript.Text
