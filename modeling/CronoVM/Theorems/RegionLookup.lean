import CronoVM.Lifecycle
import CronoVM.Theorems.Load

/-!
# Region lookup by the program and by the host

`RegionLookupsAgree` says that the syscall returns what the host is told. It does when the name ends inside the heap, and the offset of the
region is not the number for a miss.
-/

namespace CronoVM

open Checked

/-- A name of at most 15 bytes lies at an address of guest memory, and is the host's. -/
structure NameAt {κ : Type} (img : Image κ) (heap : Mem) (addr : Word) (n : Nat) (name : List Byte) : Prop where
  short : n ≤ 15
  inside : addr.toNat + n < img.memSize.toNat
  char : ∀ k, k < n → heap.byte (addr.toNat + k) ≠ 0#8
  nul : heap.byte (addr.toNat + n) = 0#8
  same : cstr name = heap.chars addr.toNat n

/-- The syscall returns the offset of a region if the host finds this one, and -1 if the host finds none. -/
structure RegionLookupsAgree {κ W : Type} (img : Image κ) (v : HostView κ W) (name : List Byte) : Prop where
  hit : ∀ r, cvmImageGetRegion img name = .ok r ↔
    sysRegion img v.heap (v.regs 0) = some r ∧ (builtinSysGetRegion img v).1.regs 0 = r.offset
  miss : cvmImageGetRegion img name = .error .noSuchRegion ↔ (builtinSysGetRegion img v).1.regs 0 = -1#32

namespace RegionLookupAux

/-! ## Strings -/

/-- The first characters of a string. -/
theorem cstr_take (s : List Byte) (n : Nat) : cstr (s.take n) = (cstr s).take n := List.take_takeWhile.symm

/-- A NUL is behind the characters of a string. -/
theorem getD_length_cstr (s : List Byte) : s.getD (cstr s).length 0 = 0#8 := by
  induction s with
  | nil => rfl
  | cons b s ih =>
    unfold cstr at ih ⊢
    by_cases hb : b = 0
    · rw [hb]
      rfl
    · rw [List.takeWhile_cons_of_pos (by simpa using hb)]
      exact ih

/-- A place among the first characters. -/
theorem getD_take {s : List Byte} {n k : Nat} (h : k < n) : (s.take n).getD k 0 = s.getD k 0 := by
  simp [List.getD, List.getElem?_take_of_lt h]

/-! ## The scan -/

variable {heap : Mem} {p n : Nat}

/-- The characters read from memory, as many as were asked for. -/
theorem length_chars (heap : Mem) (p n : Nat) : (heap.chars p n).length = n := by
  simp [Mem.chars]

/-- The string at a place has the characters before its NUL. -/
theorem cstr_chars (hchar : ∀ k, k < n → heap.byte (p + k) ≠ 0#8) (hnul : heap.byte (p + n) = 0#8) {m : Nat} (hlt : n < m) :
    cstr (heap.chars p m) = heap.chars p n := by
  obtain ⟨d, rfl⟩ := Nat.exists_eq_add_of_lt hlt
  have hsplit : heap.chars p (n + d + 1) = heap.chars p n ++ heap.byte (p + n) :: (List.range d).map fun k => heap.byte (p + (n + (k + 1))) := by
    rw [Mem.chars, Nat.add_assoc, List.range_add, List.range_succ_eq_map]
    simp [Mem.chars]
  rw [hsplit, cstr, List.takeWhile_append_of_pos, List.takeWhile_cons_of_neg (by simpa using hnul), List.append_nil]
  intro b hb
  obtain ⟨k, hk, rfl⟩ := List.mem_map.mp hb
  simpa using hchar k (List.mem_range.mp hk)

/-- The scan ends at the NUL if it reaches it. -/
theorem nulScan_eq (hchar : ∀ k, k < n → heap.byte (p + k) ≠ 0#8) (hnul : heap.byte (p + n) = 0#8) {turns k : Nat} (hk : k ≤ n) :
    nulScan heap p turns k = min n (k + turns) := by
  induction turns generalizing k with
  | zero =>
    rw [nulScan]
    omega
  | succ turns ih =>
    rw [nulScan]
    rcases Nat.lt_or_eq_of_le hk with hlt | rfl
    · rw [if_pos (hchar k hlt), ih hlt]
      omega
    · rw [if_neg (not_not_intro hnul)]
      omega

/-! ## The two lookups -/

section lookup

variable {κ : Type} {img : Image κ} {addr : Word} {name : List Byte}

/-- The tests of the two loops are the same. -/
theorem sameTest (h : NameAt img heap addr n name) (r : Region) :
    (strncmpEq r.name (heap.chars addr.toNat 16) 16 && r.name.getD n 0 == 0#8) = strncmpEq r.name name 16 := by
  have hn := h.short
  have hlen := length_chars heap addr.toNat n
  have hguest : cstr ((heap.chars addr.toNat 16).take 16) = heap.chars addr.toNat n := by
    rw [cstr_take, cstr_chars h.char h.nul (by omega), List.take_of_length_le (by omega)]
  have hhost : cstr (name.take 16) = heap.chars addr.toNat n := by
    rw [cstr_take, h.same, List.take_of_length_le (by omega)]
  unfold strncmpEq
  rw [hguest, hhost]
  by_cases heq : cstr (r.name.take 16) = heap.chars addr.toNat n
  · have hend := getD_length_cstr (r.name.take 16)
    rw [heq, hlen, getD_take (by omega)] at hend
    rw [heq, hend, beq_self_eq_true, beq_self_eq_true, Bool.and_self]
  · rw [beq_eq_false_iff_ne.mpr heq, Bool.false_and]

/-- The syscall finds what the host finds if the name ends inside the heap, and nothing otherwise. -/
theorem sysRegion_eq (h : NameAt img heap addr n name) : sysRegion img heap addr =
    if addr.toNat + n < img.heapSize.toNat then img.firstRegion fun r => strncmpEq r.name name 16 else none := by
  have hn := h.short
  unfold sysRegion
  by_cases hout : addr ≥ img.heapSize
  · have hle : img.heapSize.toNat ≤ addr.toNat := hout
    rw [if_pos hout, if_neg (by omega)]
  · have hlt : addr.toNat < img.heapSize.toNat := Nat.lt_of_not_le hout
    rw [if_neg hout, BitVec.toNat_sub_of_le (Nat.le_of_lt hlt)]
    dsimp only
    rw [nulScan_eq h.char h.nul (Nat.zero_le n)]
    by_cases hin : addr.toNat + n < img.heapSize.toNat
    · have hend : min n (0 + if img.heapSize.toNat - addr.toNat > 16 then 16 else img.heapSize.toNat - addr.toNat) = n := by
        split <;> omega
      have hne : n ≠ if img.heapSize.toNat - addr.toNat > 16 then 16 else img.heapSize.toNat - addr.toNat := by
        split <;> omega
      rw [hend, if_neg hne, if_pos hin]
      exact congrArg img.firstRegion (funext fun r => sameTest h r)
    · have hend : min n (0 + if img.heapSize.toNat - addr.toNat > 16 then 16 else img.heapSize.toNat - addr.toNat) =
          if img.heapSize.toNat - addr.toNat > 16 then 16 else img.heapSize.toNat - addr.toNat := by
        split <;> omega
      rw [if_pos hend, if_neg hin]

/-- Of a loaded image the host finds the region that has the name. -/
theorem firstRegion_eq_some_iff {base : List Byte} (hload : Loadable base) (himg : ImageOf base img) (name : List Byte) (r : Region) :
    (img.firstRegion fun r => strncmpEq r.name name 16) = some r ↔ r ∈ img.regions ∧ strncmpEq r.name name 16 = true := by
  have hcount : img.regions.take img.regionCount.toNat = img.regions := by
    rw [himg.regions, himg.regionCount]
    refine List.take_of_length_le (Nat.le_of_eq ?_)
    rw [List.length_map, List.length_range]
  rw [Image.firstRegion, hcount]
  constructor
  · intro hfind
    exact ⟨List.mem_of_find?_eq_some hfind, List.find?_some (p := fun (r : Region) => strncmpEq r.name name 16) hfind⟩
  · rintro ⟨hmem, hname⟩
    obtain ⟨r', hfind⟩ := Option.isSome_iff_exists.mp ((List.find?_isSome (p := fun (r : Region) => strncmpEq r.name name 16)).mpr ⟨r, hmem, hname⟩)
    have hmem' := List.mem_of_find?_eq_some hfind
    have hname' : strncmpEq r'.name name 16 = true := List.find?_some (p := fun (r : Region) => strncmpEq r.name name 16) hfind
    have hsame : cstr (r.name.take 16) = cstr (r'.name.take 16) := by
      rw [strncmpEq, beq_iff_eq] at hname hname'
      exact hname.trans hname'.symm
    rw [himg.regions] at hmem hmem'
    obtain ⟨i, hi, rfl⟩ := List.mem_map.mp hmem
    obtain ⟨j, hj, rfl⟩ := List.mem_map.mp hmem'
    -- two regions of one name would have been rejected
    have hdistinct : ∀ {a b : Nat}, a < (fileRegionCount base).toNat → b < a →
        cstr ((regionOf base a).name.take 16) ≠ cstr ((regionOf base b).name.take 16) := by
      intro a b ha hb heq
      have hpos : fileSize base .hostRegion > 0 := by
        by_contra hno
        rw [fileRegionCount, if_neg hno] at ha
        exact absurd ha (Nat.not_lt_zero a)
      rw [fileRegionCount, if_pos hpos] at ha
      have hne := ((hload.regions hpos).regions.entries a ha).distinct b hb
      rw [strncmpEq, beq_eq_false_iff_ne] at hne
      exact hne heq
    rcases Nat.lt_trichotomy i j with hlt | rfl | hlt
    · exact absurd hsame.symm (hdistinct (List.mem_range.mp hj) hlt)
    · exact hfind
    · exact absurd hsame (hdistinct (List.mem_range.mp hi) hlt)

/-- The host finds the first region whose name agrees in 16 characters. -/
theorem cvmImageGetRegion_ok_iff {r : Region} :
    cvmImageGetRegion img name = .ok r ↔ (img.firstRegion fun r => strncmpEq r.name name 16) = some r := by
  unfold cvmImageGetRegion
  cases img.firstRegion fun r => strncmpEq r.name name 16 with
  | some r' => exact ⟨fun h => congrArg some (Except.ok.inj h), fun h => congrArg Except.ok (Option.some.inj h)⟩
  | none => exact ⟨nofun, nofun⟩

/-- It finds none exactly if there is no such region. -/
theorem cvmImageGetRegion_error_iff :
    cvmImageGetRegion img name = .error .noSuchRegion ↔ (img.firstRegion fun r => strncmpEq r.name name 16) = none := by
  unfold cvmImageGetRegion
  cases img.firstRegion fun r => strncmpEq r.name name 16 with
  | some r' => exact ⟨nofun, nofun⟩
  | none => exact ⟨fun _ => rfl, fun _ => rfl⟩

end lookup

end RegionLookupAux

open RegionLookupAux

/-- Program and host agree on a name if no region has it, and on the name of a region if that ends inside the heap and the region is not at
the last address of all. -/
theorem region_lookups_agree_iff {κ W A : Type} (al : Allocator A) (base : List Byte) (world : A) (img : Image κ) (t : LoadState A)
    (h : cvmLoadEx al base (LoadState.start world) = .val img t) (v : HostView κ W) (n : Nat) (name : List Byte)
    (hname : NameAt img v.heap (v.regs 0) n name) :
    RegionLookupsAgree img v name ↔
      ∀ r ∈ img.regions, strncmpEq r.name name 16 = true → (v.regs 0).toNat + n < img.heapSize.toNat ∧ r.offset ≠ -1#32 := by
  obtain ⟨hload, -, himg⟩ := imageOf_of_load h
  have hfirst := firstRegion_eq_some_iff hload himg name
  have hsys := sysRegion_eq hname
  have hresult : (builtinSysGetRegion img v).1.regs 0 = (sysRegion img v.heap (v.regs 0)).elim (-1#32) Region.offset := by
    unfold builtinSysGetRegion
    refine (Function.update_self 0 _ v.regs).trans ?_
    cases sysRegion img v.heap (v.regs 0) <;> rfl
  constructor
  · intro hagree r hr hmatch
    have hfound := (hfirst r).mpr ⟨hr, hmatch⟩
    obtain ⟨hreturn, hoffset⟩ := (hagree.hit r).mp (cvmImageGetRegion_ok_iff.mpr hfound)
    constructor
    · by_contra hout
      rw [hsys, if_neg hout] at hreturn
      cases hreturn
    · intro hlast
      have hnone := cvmImageGetRegion_error_iff.mp (hagree.miss.mpr (hoffset.trans hlast))
      rw [hfound] at hnone
      cases hnone
  · intro hall
    -- inside the heap or without a region of the name the two find the same
    have hboth : sysRegion img v.heap (v.regs 0) = img.firstRegion fun r => strncmpEq r.name name 16 := by
      rw [hsys]
      cases hfound : img.firstRegion fun r => strncmpEq r.name name 16 with
      | none => exact ite_self none
      | some r =>
        obtain ⟨hr, hmatch⟩ := (hfirst r).mp hfound
        rw [if_pos (hall r hr hmatch).1]
    constructor
    · intro r
      rw [cvmImageGetRegion_ok_iff, hboth]
      constructor
      · intro hfound
        rw [hresult, hboth, hfound]
        exact ⟨rfl, rfl⟩
      · exact And.left
    · rw [cvmImageGetRegion_error_iff, hresult, hboth]
      cases hfound : img.firstRegion fun r => strncmpEq r.name name 16 with
      | none => exact ⟨fun _ => rfl, fun _ => rfl⟩
      | some r =>
        obtain ⟨hr, hmatch⟩ := (hfirst r).mp hfound
        exact ⟨fun hsome => absurd hsome (Option.some_ne_none r), fun hlast => absurd hlast (hall r hr hmatch).2⟩

/-- The memory of a program that has put the name of the region `fb` at an address. -/
def memoryWithName (p : Nat) : Mem where
  size := 24
  byte i := if i = p then 0x66#8 else if i = p + 1 then 0x62#8 else 0#8

/-- The program calls with this address in the first register. -/
def viewWithName (p : Nat) : HostView Unit Unit where
  regs := fun _ => BitVec.ofNat 32 p
  heap := memoryWithName p
  importFns := []
  world := ()

/-- The name is in memory where the call says. -/
theorem nameAt_viewWithName {img : Image Unit} (hmem : img.memSize = 24#32) {p : Nat} (hp : p ≤ 20) :
    NameAt img (viewWithName p).heap ((viewWithName p).regs 0) 2 [0x66#8, 0x62#8, 0#8] := by
  have haddr : ((viewWithName p).regs 0).toNat = p := by
    change (BitVec.ofNat 32 p).toNat = p
    rw [BitVec.toNat_ofNat]
    omega
  constructor
  case short => decide
  case inside =>
    rw [haddr, hmem]
    change p + 2 < 24
    omega
  case char =>
    intro k hk
    rw [haddr]
    rcases Nat.le_one_iff_eq_zero_or_eq_one.mp (Nat.le_of_lt_succ hk) with rfl | rfl
    · simp [viewWithName, memoryWithName]
    · simp [viewWithName, memoryWithName]
  case nul =>
    rw [haddr]
    simp [viewWithName, memoryWithName]
  case same =>
    rw [haddr]
    simp [viewWithName, memoryWithName, Mem.chars, cstr, List.range_succ]

/-- The image of the sample file has 16 bytes of heap, 8 of stack and the region `fb` at 8. -/
theorem sampleFile_region : ∃ (img : Image Unit) (t : LoadState Nat),
    cvmLoadEx bumpAllocator sampleFile (LoadState.start 0) = .val img t ∧ img.heapSize = 16#32 ∧ img.memSize = 24#32 ∧
      img.regionCount = 1#32 ∧ img.regions = [{ name := [0x66#8, 0x62#8] ++ List.replicate 14 0#8, offset := 8#32, size := 4#32, direction := 2#32 }] := by
  have hholds : (cvmLoadEx (κ := Unit) bumpAllocator sampleFile (LoadState.start 0)).holds (fun img _ =>
      img.heapSize == 16#32 && img.memSize == 24#32 && img.regionCount == 1#32 &&
        img.regions == [{ name := [0x66#8, 0x62#8] ++ List.replicate 14 0#8, offset := 8#32, size := 4#32, direction := 2#32 }]) = true := by
    decide +kernel
  obtain ⟨img, t, h, hfacts⟩ := Outcome.exists_of_holds hholds
  simp only [Bool.and_eq_true, beq_iff_eq] at hfacts
  exact ⟨img, t, h, hfacts.1.1.1, hfacts.1.1.2, hfacts.1.2, hfacts.2⟩

/-- The name in DATA. -/
theorem region_lookups_agree_iff_fb : ∃ (img : Image Unit) (t : LoadState Nat),
    cvmLoadEx bumpAllocator sampleFile (LoadState.start 0) = .val img t ∧
      RegionLookupsAgree img (viewWithName 0) [0x66#8, 0x62#8, 0#8] := by
  obtain ⟨img, t, h, hheap, hmem, -, hregions⟩ := sampleFile_region
  refine ⟨img, t, h, (region_lookups_agree_iff bumpAllocator sampleFile 0 img t h (viewWithName 0) 2 [0x66#8, 0x62#8, 0#8]
    (nameAt_viewWithName hmem (by decide))).mpr ?_⟩
  intro r hr _
  rw [hregions, List.mem_singleton] at hr
  subst hr
  rw [hheap]
  decide

/-- The name on the stack: the host finds the region, the program is told that there is none. -/
theorem region_name_on_stack : ¬∀ (img : Image Unit) (t : LoadState Nat),
    cvmLoadEx bumpAllocator sampleFile (LoadState.start 0) = .val img t → ∀ (v : HostView Unit Unit) (n : Nat) (name : List Byte),
      NameAt img v.heap (v.regs 0) n name → RegionLookupsAgree img v name := by
  intro hall
  obtain ⟨img, t, h, hheap, hmem, hcount, hregions⟩ := sampleFile_region
  have hname := nameAt_viewWithName hmem (show 16 ≤ 20 by decide)
  have hagree := hall img t h (viewWithName 16) 2 [0x66#8, 0x62#8, 0#8] hname
  have hfound : img.firstRegion (fun r => strncmpEq r.name [0x66#8, 0x62#8, 0#8] 16) =
      some { name := [0x66#8, 0x62#8] ++ List.replicate 14 0#8, offset := 8#32, size := 4#32, direction := 2#32 } := by
    rw [Image.firstRegion, hregions, hcount]
    decide
  have hreturn := ((hagree.hit _).mp (cvmImageGetRegion_ok_iff.mpr hfound)).1
  rw [sysRegion_eq hname, hheap, if_neg (by decide)] at hreturn
  nomatch hreturn

end CronoVM
