import Pulsar.Arch.Translate

/-!
# What a number of x86_64 runs (`linux.rs`)

The translation leaves a number that it does not know as it is, and the generic numbering has most
small numbers for other calls.

* `dispatch_right`: a number runs the call that it means on the arguments that the call takes, or
  nothing, exactly for the numbers that are not `astray`, and for `dup2` and `accept` where what a
  third or a fourth argument would be has no flag that is read.
* `shmget_astray`: `shmget` runs `ioctl`.
-/

namespace Pulsar.Arch.X86

def O_NONBLOCK : BitVec 64 := 0x800
def O_CLOEXEC : BitVec 64 := 0x80000

/-- The services of `dispatch_nr` and `call`, each with the number of arguments up to the last that
it reads. -/
def services : List (Nat × Nat) :=
  [(5, 0), (6, 0), (7, 0), (8, 0), (9, 0), (10, 0), (11, 0), (12, 0), (13, 0), (14, 0), (15, 0),
    (16, 0), (17, 2), (19, 2), (20, 1), (21, 4), (22, 4), (23, 1), (24, 3), (25, 3), (29, 3),
    (32, 1), (33, 3), (34, 3), (35, 3), (36, 3), (37, 5), (38, 4), (39, 0), (40, 0), (41, 0),
    (43, 2), (44, 2), (45, 2), (46, 2), (47, 4), (48, 2), (49, 1), (50, 1), (51, 0), (52, 0),
    (53, 0), (54, 0), (55, 0), (56, 4), (57, 1), (59, 2), (61, 3), (62, 3), (63, 3), (64, 3),
    (65, 3), (66, 3), (67, 4), (68, 4), (69, 4), (70, 4), (72, 5), (73, 3), (78, 4), (79, 4),
    (80, 2), (81, 0), (82, 0), (83, 0), (88, 0), (90, 2), (91, 0), (93, 1), (94, 1), (95, 5),
    (96, 1), (97, 0), (98, 6), (99, 0), (101, 1), (102, 2), (103, 3), (113, 2), (114, 2), (115, 3),
    (119, 0), (120, 0), (121, 2), (122, 0), (123, 3), (124, 0), (125, 0), (126, 0), (129, 2),
    (130, 2), (131, 3), (132, 2), (133, 1), (134, 3), (135, 3), (136, 1), (139, 0), (140, 0),
    (141, 0), (143, 0), (144, 0), (145, 0), (146, 0), (147, 0), (148, 3), (149, 0), (150, 3),
    (151, 0), (152, 0), (154, 0), (155, 0), (157, 0), (160, 1), (163, 2), (164, 0), (165, 2),
    (166, 0), (167, 5), (169, 1), (172, 0), (173, 0), (174, 0), (175, 0), (176, 0), (177, 0),
    (178, 0), (179, 1), (198, 2), (199, 4), (200, 3), (201, 1), (202, 3), (203, 3), (204, 3),
    (205, 3), (206, 6), (207, 6), (208, 1), (209, 5), (210, 2), (211, 3), (212, 3), (213, 0),
    (214, 1), (215, 2), (216, 4), (220, 5), (221, 3), (222, 6), (223, 0), (226, 3), (227, 0),
    (233, 3), (242, 4), (260, 4), (261, 4), (268, 0), (276, 5), (277, 0), (278, 2), (279, 2),
    (283, 1), (291, 5), (439, 4), (441, 5), (1007, 3), (1023, 5), (0x5000, 1), (0x5001, 1)]

/-- Of the flags of `dup3` and `accept4` those are read that are known. -/
def known (g : Nat) (args : List (BitVec 64)) : List (BitVec 64) :=
  match g with
  | 24 => args.modify 2 (· &&& O_CLOEXEC)
  | 242 => args.modify 3 (· &&& (O_NONBLOCK ||| O_CLOEXEC))
  | _ => args

/-- What the service `g` reads of its arguments, if there is one. -/
def reads (g : Nat) (args : List (BitVec 64)) : Option (List (BitVec 64)) :=
  (services.lookup g).map fun k => known g (args.take k)

def Context.args (c : Context) : List (BitVec 64) := [c.rdi, c.rsi, c.rdx, c.r10, c.r8, c.r9]

/-- What a call runs: it is answered by the translation, there is no service (`ENOSYS`), or a
service reads these arguments. -/
inductive Run where
  | answered
  | missing
  | service (g : Nat) (seen : List (BitVec 64))
  deriving DecidableEq

/-- The call `nr`, from the translation on. -/
def runNr (nr : Nat) (s : Entry) : Run :=
  match x86ToGeneric nr s with
  | (none, _) => .answered
  | (some g, s) => (reads g s.ctx.args).elim .missing (.service g)

/-- `dispatch(frame)`. -/
def dispatch (s : Entry) : Run := runNr s.ctx.syscallNum s

/-! ### What the numbers mean -/

/-- The calls of x86_64 that the generic numbering has too: the number there, and how many arguments
the call takes.  The last two are extensions for programs of the system. -/
def shared : List (Nat × Nat × Nat) :=
  [(0, 63, 3), (1, 64, 3), (3, 57, 1), (5, 80, 2), (7, 1007, 3), (8, 62, 3), (9, 222, 6),
    (10, 226, 3), (11, 215, 2), (12, 214, 1), (13, 134, 4), (14, 135, 4), (15, 139, 0),
    (16, 29, 3), (17, 67, 4), (18, 68, 4), (19, 65, 3), (20, 66, 3), (23, 1023, 5), (24, 124, 0),
    (25, 216, 5), (26, 227, 3), (27, 232, 3), (28, 233, 3), (29, 194, 3), (30, 196, 3),
    (31, 195, 3), (32, 23, 1), (35, 101, 2), (36, 102, 2), (38, 103, 3), (39, 172, 0), (40, 71, 4),
    (41, 198, 3), (42, 203, 3), (44, 206, 6), (45, 207, 6), (46, 211, 3), (47, 212, 3),
    (48, 210, 2), (49, 200, 3), (50, 201, 2), (51, 204, 3), (52, 205, 3), (53, 199, 4),
    (54, 208, 5), (55, 209, 5), (59, 221, 3), (60, 93, 1), (61, 260, 4), (62, 129, 2),
    (63, 160, 1), (64, 190, 3), (65, 193, 3), (66, 191, 4), (67, 197, 1), (68, 186, 2),
    (69, 189, 4), (70, 188, 5), (71, 187, 3), (72, 25, 3), (73, 32, 2), (74, 82, 1), (75, 83, 1),
    (76, 45, 2), (77, 46, 2), (79, 17, 2), (80, 49, 1), (81, 50, 1), (91, 52, 2), (93, 55, 3),
    (95, 166, 1), (96, 169, 2), (97, 163, 2), (98, 165, 2), (99, 179, 1), (100, 153, 1),
    (101, 117, 4), (102, 174, 0), (103, 116, 3), (104, 176, 0), (105, 146, 1), (106, 144, 1),
    (107, 175, 0), (108, 177, 0), (109, 154, 2), (110, 173, 0), (112, 157, 0), (113, 145, 2),
    (114, 143, 2), (115, 158, 2), (116, 159, 2), (117, 147, 3), (118, 148, 3), (119, 149, 3),
    (120, 150, 3), (121, 155, 1), (122, 151, 1), (123, 152, 1), (124, 156, 1), (125, 90, 2),
    (126, 91, 2), (127, 136, 2), (128, 137, 4), (129, 138, 3), (130, 133, 2), (131, 132, 2),
    (135, 92, 1), (137, 43, 2), (138, 44, 2), (140, 141, 2), (141, 140, 3), (142, 118, 2),
    (143, 121, 2), (144, 119, 3), (145, 120, 1), (146, 125, 1), (147, 126, 1), (148, 127, 2),
    (149, 228, 2), (150, 229, 2), (151, 230, 1), (152, 231, 0), (153, 58, 0), (155, 41, 2),
    (157, 167, 5), (159, 171, 1), (160, 164, 2), (161, 51, 1), (162, 81, 0), (163, 89, 1),
    (164, 170, 2), (165, 40, 5), (166, 39, 2), (167, 224, 2), (168, 225, 1), (169, 142, 4),
    (170, 161, 2), (171, 162, 2), (175, 105, 3), (176, 106, 2), (179, 60, 4), (180, 42, 3),
    (186, 178, 0), (187, 213, 3), (188, 5, 5), (189, 6, 5), (190, 7, 5), (191, 8, 4), (192, 9, 4),
    (193, 10, 4), (194, 11, 3), (195, 12, 3), (196, 13, 3), (197, 14, 2), (198, 15, 2),
    (199, 16, 2), (200, 130, 2), (202, 98, 6), (203, 122, 3), (204, 123, 3), (206, 0, 2),
    (207, 1, 1), (208, 4, 5), (209, 2, 3), (210, 3, 3), (212, 18, 3), (216, 234, 5), (217, 61, 3),
    (218, 96, 1), (219, 128, 0), (220, 192, 4), (221, 223, 4), (222, 107, 3), (223, 110, 4),
    (224, 108, 2), (225, 109, 1), (226, 111, 1), (227, 112, 2), (228, 113, 2), (229, 114, 2),
    (230, 115, 4), (231, 94, 1), (233, 21, 4), (234, 131, 3), (237, 235, 6), (238, 237, 3),
    (239, 236, 5), (240, 180, 4), (241, 181, 1), (242, 182, 5), (243, 183, 5), (244, 184, 2),
    (245, 185, 3), (246, 104, 4), (247, 95, 5), (248, 217, 5), (249, 218, 4), (250, 219, 5),
    (251, 30, 3), (252, 31, 2), (254, 27, 3), (255, 28, 2), (256, 238, 4), (257, 56, 4),
    (258, 34, 3), (259, 33, 4), (260, 54, 5), (262, 79, 4), (263, 35, 3), (264, 38, 4),
    (265, 37, 5), (266, 36, 3), (267, 78, 4), (268, 53, 3), (269, 48, 3), (270, 72, 6),
    (271, 73, 5), (272, 97, 1), (273, 99, 2), (275, 76, 6), (276, 77, 4), (277, 84, 4),
    (278, 75, 4), (279, 239, 6), (280, 88, 4), (281, 22, 6), (283, 85, 2), (285, 47, 4),
    (286, 86, 4), (287, 87, 2), (288, 242, 4), (289, 74, 4), (290, 19, 2), (291, 20, 1),
    (292, 24, 3), (293, 59, 2), (294, 26, 1), (295, 69, 5), (296, 70, 5), (297, 240, 4),
    (298, 241, 5), (299, 243, 5), (300, 262, 2), (301, 263, 5), (302, 261, 4), (303, 264, 5),
    (304, 265, 3), (305, 266, 2), (306, 267, 1), (307, 269, 4), (308, 268, 2), (309, 168, 3),
    (310, 270, 6), (311, 271, 6), (312, 272, 5), (313, 273, 3), (314, 274, 3), (315, 275, 4),
    (316, 276, 5), (317, 277, 3), (318, 278, 3), (319, 279, 2), (320, 294, 5), (321, 280, 3),
    (322, 281, 5), (323, 282, 1), (324, 283, 3), (325, 284, 3), (326, 285, 6), (327, 286, 6),
    (328, 287, 6), (329, 288, 4), (330, 289, 2), (331, 290, 1), (332, 291, 5), (333, 292, 6),
    (424, 424, 4), (425, 425, 2), (426, 426, 6), (427, 427, 4), (428, 428, 3), (429, 429, 5),
    (430, 430, 2), (431, 431, 5), (432, 432, 3), (433, 433, 3), (434, 434, 2), (435, 435, 2),
    (436, 436, 3), (437, 437, 4), (438, 438, 3), (439, 439, 4), (440, 440, 5), (441, 441, 6),
    (442, 442, 5), (0x5000, 0x5000, 1), (0x5001, 0x5001, 1)]

/-- What the number `nr` means: a service of the generic numbering, and the arguments it gets. -/
def meaning (nr : Nat) (c : Context) : Option (Nat × List (BitVec 64)) :=
  match nr with
  -- open, stat, lstat, access
  | 2 => some (56, [AT_FDCWD, c.rdi, c.rsi, c.rdx])
  | 4 => some (79, [AT_FDCWD, c.rdi, c.rsi, 0])
  | 6 => some (79, [AT_FDCWD, c.rdi, c.rsi, 0x100])
  | 21 => some (48, [AT_FDCWD, c.rdi, c.rsi])
  -- pipe
  | 22 => some (59, [c.rdi, 0])
  -- dup2, which has nothing to do for one descriptor
  | 33 => if c.rdi = c.rsi then none else some (24, [c.rdi, c.rsi, 0])
  -- accept
  | 43 => some (242, [c.rdi, c.rsi, c.rdx, 0])
  -- clone, fork, vfork
  | 56 => some (220, [c.rdi, c.rsi, c.rdx, c.r8, c.r10])
  | 57 => some (220, [17, 0, 0, 0, 0])
  | 58 => some (220, [0x4111, 0, 0, 0, 0])
  -- rename, mkdir, rmdir, creat, link, unlink, symlink, readlink, chmod, chown, lchown
  | 82 => some (38, [AT_FDCWD, c.rdi, AT_FDCWD, c.rsi])
  | 83 => some (34, [AT_FDCWD, c.rdi, c.rsi])
  | 84 => some (35, [AT_FDCWD, c.rdi, 0x200])
  | 85 => some (56, [AT_FDCWD, c.rdi, 0x241, c.rsi])
  | 86 => some (37, [AT_FDCWD, c.rdi, AT_FDCWD, c.rsi, 0])
  | 87 => some (35, [AT_FDCWD, c.rdi, 0])
  | 88 => some (36, [c.rdi, AT_FDCWD, c.rsi])
  | 89 => some (78, [AT_FDCWD, c.rdi, c.rsi, c.rdx])
  | 90 => some (53, [AT_FDCWD, c.rdi, c.rsi])
  | 92 => some (54, [AT_FDCWD, c.rdi, c.rsi, c.rdx, 0])
  | 94 => some (54, [AT_FDCWD, c.rdi, c.rsi, c.rdx, 0x100])
  -- getpgrp
  | 111 => some (155, [0])
  -- mknod
  | 133 => some (33, [AT_FDCWD, c.rdi, c.rsi, c.rdx])
  -- epoll_create, epoll_wait, inotify_init, signalfd, eventfd
  | 213 => some (20, [0])
  | 232 => some (22, [c.rdi, c.rsi, c.rdx, c.r10, 0, 0])
  | 253 => some (26, [0])
  | 282 => some (74, [c.rdi, c.rsi, c.rdx, 0])
  | 284 => some (19, [c.rdi, 0])
  | nr => (shared.lookup nr).map fun x => (x.1, c.args.take x.2)

/-- The calls that the translation answers: `arch_prctl`, `get_robust_list` and `rseq`. -/
def answered : List Nat := [158, 274, 334]

/-- The call `nr` runs what it means, on its arguments and whatever is in the other registers, or
nothing. -/
def RightAt (nr : Nat) (s : Entry) : Prop :=
  match runNr nr s with
  | .answered => nr ∈ answered
  | .missing => True
  | .service g seen =>
    ∃ args, meaning nr s.ctx = some (g, args) ∧ ∀ rest, reads g (args ++ rest) = some seen

def Right (s : Entry) : Prop := RightAt s.ctx.syscallNum s

/-- The numbers that run another call than they mean. -/
def astray : List Nat :=
  [29, 34, 36, 37, 40, 64, 65, 66, 67, 68, 69, 70, 78, 81, 90, 91, 93, 94, 101, 103, 111, 113, 114,
    115, 119, 122, 123, 125, 126, 129, 132, 133, 134, 135, 136, 139, 140, 141, 143, 144, 145, 146,
    147, 148, 149, 150, 151, 152, 154, 155, 163, 164, 165, 166, 167, 169, 172, 173, 174, 175, 176,
    177, 178, 179, 198, 199, 201, 205, 206, 207, 208, 209, 210, 211, 212, 213, 214, 215, 216, 220,
    222, 223, 226, 227, 242, 261, 276, 277, 278, 279, 283, 1007, 1023]

/-- The number is not one of those, and no flag comes in by chance. -/
def Meant (nr : Nat) (c : Context) : Prop :=
  nr ∉ astray ∧ (nr = 33 → c.rdi ≠ c.rsi ∧ c.rdx &&& O_CLOEXEC = 0) ∧
    (nr = 43 → c.r10 &&& (O_NONBLOCK ||| O_CLOEXEC) = 0)

variable {nr : Nat} {s : Entry}

/-! ### Numbers that stay with their arguments where they are -/

/-- The generic number. -/
def generic (nr : Nat) : Nat := (numbers.lookup nr).getD nr

/-- The numbers whose arguments are moved, that are answered at once, or that mean what no call of
the generic numbering does with the same arguments. -/
def moving : List Nat :=
  [2, 4, 6, 21, 22, 33, 43, 56, 57, 58, 82, 83, 84, 85, 86, 87, 88, 89, 90, 92, 94, 111, 133, 158,
    213, 232, 253, 274, 282, 284, 334]

theorem x86ToGeneric_plain (h : nr ∉ moving) (s : Entry) :
    x86ToGeneric nr s = (some (generic nr), s) := by
  unfold x86ToGeneric
  split <;> first | rfl | exact absurd (by decide) h

theorem meaning_plain (h : nr ∉ moving) (c : Context) :
    meaning nr c = (shared.lookup nr).map fun x => (x.1, c.args.take x.2) := by
  unfold meaning
  split <;> first | rfl | exact absurd (by decide) h

/-- The number is not served, or it is by the call that it means. -/
def fits (nr : Nat) : Bool :=
  (services.lookup (generic nr)).all fun k =>
    (shared.lookup nr).any fun x => decide (x.1 = generic nr ∧ k ≤ min x.2 6)

/-- The number is served by another call than it means. -/
def strays (nr : Nat) : Bool :=
  (services.lookup (generic nr)).isSome && decide ((shared.lookup nr).map (·.1) ≠ some (generic nr))

theorem fits_table : ∀ nr ∈ numbers.map (·.1) ++ services.map (·.1), nr ∉ moving →
    nr ∉ astray → fits nr = true := by decide +kernel

theorem strays_table : ∀ nr ∈ astray, nr ∉ moving → strays nr = true := by decide +kernel

theorem lookup_eq_none {α : Type} {l : List (Nat × α)} (h : nr ∉ l.map (·.1)) :
    l.lookup nr = none :=
  List.lookup_eq_none_iff.mpr fun _ hx => bne_iff_ne.mpr fun hc => h (hc ▸ List.mem_map_of_mem hx)

theorem fits_plain (h : nr ∉ moving) (ha : nr ∉ astray) : fits nr = true := by
  by_cases hin : nr ∈ numbers.map (·.1) ++ services.map (·.1)
  · exact fits_table nr hin h ha
  · obtain ⟨hnum, hserv⟩ := not_or.mp fun hc => hin (List.mem_append.mpr hc)
    have hgen : generic nr = nr := by rw [generic, lookup_eq_none hnum, Option.getD_none]
    rw [fits, hgen, lookup_eq_none hserv, Option.all_none]

/-- **A number with its arguments where they are** runs what it means if it is not astray. -/
theorem rightAt_plain (h : nr ∉ moving) (s : Entry) : RightAt nr s ↔ nr ∉ astray := by
  unfold RightAt runNr
  rw [x86ToGeneric_plain h]
  simp only [reads]
  by_cases ha : nr ∈ astray
  · refine iff_of_false (fun hright => ?_) (not_not.mpr ha)
    obtain ⟨hserv, hmean⟩ := Bool.and_eq_true_iff.mp (strays_table nr ha h)
    obtain ⟨k, hk⟩ := Option.isSome_iff_exists.mp hserv
    rw [hk] at hright
    obtain ⟨args, hargs, -⟩ := hright
    rw [meaning_plain h] at hargs
    refine of_decide_eq_true hmean ?_
    obtain ⟨x, hx, hxa⟩ := Option.map_eq_some_iff.mp hargs
    rw [hx, Option.map_some, (Prod.mk.inj hxa).1]
  · refine iff_of_true ?_ ha
    have hfits := fits_plain h ha
    cases hk : services.lookup (generic nr) with
    | none => trivial
    | some k =>
        rw [fits, hk, Option.all_some, Option.any_eq_true] at hfits
        obtain ⟨⟨g, m⟩, hm, hd⟩ := hfits
        obtain ⟨hg, hle⟩ := of_decide_eq_true hd
        refine ⟨s.ctx.args.take m, ?_, fun rest => ?_⟩
        · rw [meaning_plain h, hm, Option.map_some, ← hg]
        · have hlen : (s.ctx.args.take m).length = min m 6 := List.length_take
          rw [hk, Option.map_some, List.take_append_of_le_length (hlen ▸ hle), List.take_take,
            Nat.min_eq_left (Nat.le_trans hle (Nat.min_le_left ..))]

/-! ### The others -/

theorem rightAt_moving (h : nr ∈ moving) (ha : nr ∉ astray) (h₁ : nr ≠ 33) (h₂ : nr ≠ 43)
    (s : Entry) : RightAt nr s := by
  have hin : nr ∈ moving.filter fun n => n ∉ astray ∧ n ≠ 33 ∧ n ≠ 43 :=
    List.mem_filter.mpr ⟨h, decide_eq_true ⟨ha, h₁, h₂⟩⟩
  have hlist : moving.filter (fun n => n ∉ astray ∧ n ≠ 33 ∧ n ≠ 43) =
      [2, 4, 6, 21, 22, 56, 57, 58, 82, 83, 84, 85, 86, 87, 88, 89, 92, 158, 232, 253, 274, 282,
        284, 334] := by decide +kernel
  rw [hlist] at hin
  simp only [List.mem_cons, List.not_mem_nil, or_false] at hin
  obtain rfl | rfl | rfl | rfl | rfl | rfl | rfl | rfl | rfl | rfl | rfl | rfl | rfl | rfl | rfl |
    rfl | rfl | rfl | rfl | rfl | rfl | rfl | rfl | rfl := hin
  all_goals first
    | exact ⟨_, rfl, fun _ => rfl⟩
    | exact trivial
    | (change _ ∈ answered; decide)

theorem not_rightAt_moving (h : nr ∈ moving) (ha : nr ∈ astray) (s : Entry) : ¬ RightAt nr s := by
  have hin : nr ∈ moving.filter (· ∈ astray) := List.mem_filter.mpr ⟨h, decide_eq_true ha⟩
  have hlist : moving.filter (· ∈ astray) = [90, 94, 111, 133, 213] := by decide +kernel
  rw [hlist] at hin
  simp only [List.mem_cons, List.not_mem_nil, or_false] at hin
  obtain rfl | rfl | rfl | rfl | rfl := hin
  all_goals
    rintro ⟨args, hargs, -⟩
    exact absurd (Prod.mk.inj (Option.some.inj hargs)).1 (by decide)

/-- `dup2` is `dup3` with the flags of another register. -/
theorem rightAt_dup2 (s : Entry) :
    RightAt 33 s ↔ s.ctx.rdi ≠ s.ctx.rsi ∧ s.ctx.rdx &&& O_CLOEXEC = 0 := by
  change (∃ args, (if s.ctx.rdi = s.ctx.rsi then none else
    some (24, [s.ctx.rdi, s.ctx.rsi, 0])) = some (24, args) ∧ ∀ rest, reads 24 (args ++ rest) =
      some [s.ctx.rdi, s.ctx.rsi, s.ctx.rdx &&& O_CLOEXEC]) ↔ _
  by_cases heq : s.ctx.rdi = s.ctx.rsi
  · rw [if_pos heq]
    exact iff_of_false (fun ⟨_, hargs, _⟩ => absurd hargs nofun) fun hc => hc.1 heq
  · rw [if_neg heq]
    constructor
    · rintro ⟨args, hargs, hrest⟩
      obtain rfl := (Prod.mk.inj (Option.some.inj hargs)).2
      have hflag := (List.cons.inj (List.cons.inj (List.cons.inj
        (Option.some.inj (hrest []))).2).2).1
      exact ⟨heq, hflag.symm⟩
    · rintro ⟨-, hflag⟩
      exact ⟨_, rfl, fun rest => by rw [hflag]; rfl⟩

/-- `accept` is `accept4` with the flags of another register. -/
theorem rightAt_accept (s : Entry) :
    RightAt 43 s ↔ s.ctx.r10 &&& (O_NONBLOCK ||| O_CLOEXEC) = 0 := by
  change (∃ args, some (242, [s.ctx.rdi, s.ctx.rsi, s.ctx.rdx, 0]) = some (242, args) ∧
    ∀ rest, reads 242 (args ++ rest) = some [s.ctx.rdi, s.ctx.rsi, s.ctx.rdx,
      s.ctx.r10 &&& (O_NONBLOCK ||| O_CLOEXEC)]) ↔ _
  constructor
  · rintro ⟨args, hargs, hrest⟩
    obtain rfl := (Prod.mk.inj (Option.some.inj hargs)).2
    exact (List.cons.inj (List.cons.inj (List.cons.inj (List.cons.inj
      (Option.some.inj (hrest []))).2).2).2).1.symm
  · intro hflag
    exact ⟨_, rfl, fun rest => by rw [hflag]; rfl⟩

/-- **A call runs what its number means**, but for the numbers that go astray and the flags of
`dup2` and `accept`. -/
theorem dispatch_right (s : Entry) : Right s ↔ Meant s.ctx.syscallNum s.ctx := by
  unfold Right Meant
  generalize s.ctx.syscallNum = nr
  by_cases h : nr ∈ moving
  · by_cases h₁ : nr = 33
    · subst h₁
      rw [rightAt_dup2]
      exact ⟨fun hc => ⟨by decide, fun _ => hc, fun hn => absurd hn (by decide)⟩,
        fun hc => hc.2.1 rfl⟩
    by_cases h₂ : nr = 43
    · subst h₂
      rw [rightAt_accept]
      exact ⟨fun hc => ⟨by decide, fun hn => absurd hn (by decide), fun _ => hc⟩,
        fun hc => hc.2.2 rfl⟩
    by_cases ha : nr ∈ astray
    · exact iff_of_false (not_rightAt_moving h ha s) fun hc => hc.1 ha
    · exact iff_of_true (rightAt_moving h ha h₁ h₂ s)
        ⟨ha, fun hc => absurd hc h₁, fun hc => absurd hc h₂⟩
  · rw [rightAt_plain h]
    refine ⟨fun ha => ⟨ha, fun hc => ?_, fun hc => ?_⟩, fun hc => hc.1⟩
    · exact absurd (hc ▸ by decide) h
    · exact absurd (hc ▸ by decide) h

/-- The registers with which `shmget` is called. -/
def getting : Context := { Context.zeroed with rax := 29, rdi := 1, rsi := 4096, rdx := 0x3B6 }

/-- **`shmget` runs `ioctl`** on its key, its size and its flags. -/
theorem shmget_astray : dispatch ⟨getting, 0, none⟩ = .service 29 [1, 4096, 0x3B6] ∧
    ¬ Right ⟨getting, 0, none⟩ :=
  ⟨by decide, fun h => by
    obtain ⟨args, hargs, -⟩ := h
    exact absurd (Prod.mk.inj (Option.some.inj hargs)).1 (by decide)⟩

end Pulsar.Arch.X86
