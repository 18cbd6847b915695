import Mathlib.Data.Fin.VecNotation
import CronoVM.Lemmas.GlobalLayout

/-!
# Global variables in the DATA section

Where `cg_collect_globals` puts the global variables of a module, and what the bytes there are. The layout ends if the global variables do
by 2³¹. The bytes are the images of the initialisers if these hold no number that is wider than its place.
-/

namespace CronoVM.Globals

namespace GlobalsAux

variable {td : TargetData}

/-- Global variables are found by their numbers. -/
theorem find_layoutItems (td : TargetData) (gvs : List GlobalVar) (i n j : Nat) :
    (layoutItems td gvs i n).find? (fun it => it.value = i + j) = (layoutItems td gvs i n)[j]? := by
  induction gvs generalizing i n j with
  | nil => rfl
  | cons gv gvs ih =>
    cases j with
    | zero => exact List.find?_cons_of_pos (decide_eq_true (Nat.add_zero i).symm)
    | succ j =>
      have hnumber : i + (j + 1) = i + 1 + j := by omega
      have hne : ¬decide (i = i + 1 + j) = true := by
        rw [decide_eq_true_eq]
        omega
      rw [layoutItems, List.getElem?_cons_succ, hnumber, ← ih]
      exact List.find?_cons_of_neg hne

/-- The place of a global variable. -/
theorem getElem_layoutItems (td : TargetData) {gvs : List GlobalVar} {i n j : Nat} {gv : GlobalVar} (h : gvs[j]? = some gv) :
    ∃ o, (layoutItems td gvs i n)[j]? = some { value := i + j, offset := BitVec.ofNat 32 o, size := sizeOf td gv.ty } ∧ n ≤ o ∧
      gv.alignment td ∣ o ∧ o + td.abiSize gv.ty ≤ layoutEnd td gvs n := by
  induction gvs generalizing i n j with
  | nil => nomatch h
  | cons gv' gvs ih =>
    have hup := le_alignUp n (alignment_pos td gv')
    cases j with
    | zero =>
      obtain rfl : gv' = gv := Option.some.inj h
      exact ⟨_, rfl, hup, dvd_alignUp _ _, le_layoutEnd gvs _⟩
    | succ j =>
      obtain ⟨o, hget, hle, hdvd, hend⟩ := ih (i := i + 1) (n := alignUp n (gv'.alignment td) + td.abiSize gv'.ty) h
      refine ⟨o, ?_, by omega, hdvd, hend⟩
      rw [layoutItems, List.getElem?_cons_succ, hget, Nat.add_assoc, Nat.add_comm 1 j]

/-- An item of the layout belongs to a global variable, at its number. -/
theorem mem_layoutItems {gvs : List GlobalVar} {i n : Nat} {it : CgGlobal} (h : it ∈ layoutItems td gvs i n) :
    ∃ j gv o, gvs[j]? = some gv ∧ it = { value := i + j, offset := BitVec.ofNat 32 o, size := sizeOf td gv.ty } ∧ n ≤ o ∧
      o + td.abiSize gv.ty ≤ layoutEnd td gvs n := by
  obtain ⟨j, hj⟩ := List.mem_iff_getElem?.mp h
  have hlt : j < gvs.length := by
    have hlen : (layoutItems td gvs i n).length = gvs.length := by
      clear h hj
      induction gvs generalizing i n with
      | nil => rfl
      | cons gv gvs ih => exact congrArg (· + 1) (ih (i := i + 1))
    exact hlen ▸ (List.getElem?_eq_some_iff.mp hj).1
  obtain ⟨o, hget, hle, -, hend⟩ := getElem_layoutItems td (i := i) (n := n) (List.getElem?_eq_getElem hlt)
  exact ⟨j, gvs[j], o, List.getElem?_eq_getElem hlt, Option.some.inj (hj.symm.trans hget), hle, hend⟩

/-- The places are in order. -/
theorem pairwise_layoutItems (td : TargetData) {gvs : List GlobalVar} {i n : Nat} (hend : layoutEnd td gvs n < 2 ^ 32) :
    (layoutItems td gvs i n).Pairwise fun a b => a.offset.toNat + a.size.toNat ≤ b.offset.toNat := by
  induction gvs generalizing i n with
  | nil => exact .nil
  | cons gv gvs ih =>
    rw [layoutEnd] at hend
    refine List.Pairwise.cons (fun it hmem => ?_) (ih hend)
    obtain ⟨j, gv', o, -, rfl, hle, hlast⟩ := mem_layoutItems hmem
    change (BitVec.ofNat 32 (alignUp n (gv.alignment td))).toNat + (sizeOf td gv.ty).toNat ≤ (BitVec.ofNat 32 o).toNat
    rw [sizeOf, BitVec.toNat_ofNat, BitVec.toNat_ofNat, BitVec.toNat_ofNat]
    omega

/-- The second pass fills the places of the global variables. -/
theorem serializeGlobals_chain {mod : Module} {items its : List CgGlobal} {m m' : Mem} (h : serializeGlobals td mod items its m = .ok m') :
    Chain (fun it m m' => ∀ gv c, mod.globals[it.value]? = some gv → gv.init = some c →
      serializeConstant td items mod.funcs (BitVec.ofNat 32 m.size) c m it.offset = some m') its m m' := by
  induction its generalizing m with
  | nil =>
    obtain rfl : m = m' := Except.ok.inj h
    exact .nil
  | cons it its ih =>
    rw [serializeGlobals] at h
    cases hgv : mod.globals[it.value]? with
    | none =>
      rw [hgv] at h
      refine .cons (fun gv c hgv' => ?_) (ih h)
      rw [hgv] at hgv'
      nomatch hgv'
    | some gv =>
      rw [hgv] at h
      dsimp only at h
      cases hinit : gv.init with
      | none =>
        rw [hinit] at h
        refine .cons (fun gv' c hgv' hinit' => ?_) (ih h)
        obtain rfl : gv = gv' := Option.some.inj (hgv.symm.trans hgv')
        rw [hinit] at hinit'
        nomatch hinit'
      | some c =>
        rw [hinit] at h
        dsimp only at h
        split at h
        case h_1 m₁ hser =>
          refine .cons (fun gv' c' hgv' hinit' => ?_) (ih h)
          obtain rfl : gv = gv' := Option.some.inj (hgv.symm.trans hgv')
          obtain rfl : c = c' := Option.some.inj (hinit.symm.trans hinit')
          exact hser
        case h_2 => nomatch h

end GlobalsAux

/-! ## Faithful layouts -/

/-- Where the global variables are. -/
structure Placed (td : TargetData) (mod : Module) (g : CgGlobals) : Prop where
  /-- Each has an aligned address that is not 0, and lies in DATA. -/
  address : ∀ i gv, mod.globals[i]? = some gv → ∃ o, (refsOf g.items mod.funcs).address i = some o ∧ o ≠ 0#32 ∧
    td.abiAlign gv.ty ∣ o.toNat ∧ (gv.align ≠ 0 → gv.align ∣ o.toNat) ∧ o.toNat + td.abiSize gv.ty ≤ g.dataSize.toNat
  /-- No two overlap. -/
  disjoint : ∀ i j gv gv' o o', i ≠ j → mod.globals[i]? = some gv → mod.globals[j]? = some gv' →
    (refsOf g.items mod.funcs).address i = some o → (refsOf g.items mod.funcs).address j = some o' →
    o.toNat + td.abiSize gv.ty ≤ o'.toNat ∨ o'.toNat + td.abiSize gv'.ty ≤ o.toNat

/-- What is in their places. -/
def Imaged (td : TargetData) (mod : Module) (g : CgGlobals) : Prop :=
  ∀ i gv c o, mod.globals[i]? = some gv → gv.init = some c → (refsOf g.items mod.funcs).address i = some o →
    ImageAt td (refsOf g.items mod.funcs) g.data c o.toNat

namespace GlobalsAux

variable {td : TargetData}

/-- The address of a global variable is the offset of its item. -/
theorem address_layoutItems (td : TargetData) {mod : Module} {n i : Nat} {gv : GlobalVar} (h : mod.globals[i]? = some gv) :
    ∃ o, (refsOf (layoutItems td mod.globals 0 n) mod.funcs).address i = some (BitVec.ofNat 32 o) ∧ n ≤ o ∧ gv.alignment td ∣ o ∧
      o + td.abiSize gv.ty ≤ layoutEnd td mod.globals n := by
  obtain ⟨o, hget, hrest⟩ := getElem_layoutItems td (i := 0) (n := n) h
  have hfind := (find_layoutItems td mod.globals 0 n i).trans hget
  rw [Nat.zero_add] at hfind
  exact ⟨o, congrArg (Option.map CgGlobal.offset) hfind, hrest⟩

/-- A global variable lies below a later one. -/
theorem address_lt {mod : Module} {n i j : Nat} (hend : layoutEnd td mod.globals n < 2 ^ 32) (hij : i < j) {gv gv' : GlobalVar}
    (hgv : mod.globals[i]? = some gv) (hgv' : mod.globals[j]? = some gv') {o o' : Word}
    (ho : (refsOf (layoutItems td mod.globals 0 n) mod.funcs).address i = some o)
    (ho' : (refsOf (layoutItems td mod.globals 0 n) mod.funcs).address j = some o') : o.toNat + td.abiSize gv.ty ≤ o'.toNat := by
  obtain ⟨k, hget, -, -, hle⟩ := getElem_layoutItems td (i := 0) (n := n) hgv
  obtain ⟨k', hget', -, -, -⟩ := getElem_layoutItems td (i := 0) (n := n) hgv'
  have hfind := (find_layoutItems td mod.globals 0 n i).trans hget
  have hfind' := (find_layoutItems td mod.globals 0 n j).trans hget'
  rw [Nat.zero_add] at hfind hfind'
  obtain rfl := Option.some.inj ((congrArg (Option.map CgGlobal.offset) hfind).symm.trans ho)
  obtain rfl := Option.some.inj ((congrArg (Option.map CgGlobal.offset) hfind').symm.trans ho')
  obtain ⟨hi, hitem⟩ := List.getElem?_eq_some_iff.mp hget
  obtain ⟨hj, hitem'⟩ := List.getElem?_eq_some_iff.mp hget'
  have hpair := List.pairwise_iff_getElem.mp (pairwise_layoutItems td (i := 0) hend) i j hi hj hij
  have hsize : (sizeOf td gv.ty).toNat = td.abiSize gv.ty := Nat.mod_eq_of_lt (by omega)
  rw [hitem, hitem'] at hpair
  rw [← hsize]
  exact hpair

/-- The items do not overlap and lie within the data. -/
theorem placed_of_items {mod : Module} {g : CgGlobals} (hitems : g.items = layoutItems td mod.globals 0 8)
    (hdata : g.dataSize.toNat = layoutEnd td mod.globals 8) (hend : layoutEnd td mod.globals 8 ≤ 2 ^ 31) : Placed td mod g where
  address := by
    intro i gv hgv
    obtain ⟨o, haddr, hge, hdvd, hle⟩ := address_layoutItems td (n := 8) hgv
    have ho : (BitVec.ofNat 32 o).toNat = o := by
      rw [BitVec.toNat_ofNat, Nat.mod_eq_of_lt (by omega)]
    have hboth := alignment_dvd td gv
    rw [hitems, hdata]
    refine ⟨_, haddr, fun hzero => ?_, ?_, fun hne => ?_, ?_⟩
    · rw [hzero] at ho
      change 0 = o at ho
      omega
    · exact ho.symm ▸ Nat.dvd_trans hboth.1 hdvd
    · exact ho.symm ▸ Nat.dvd_trans (hboth.2 hne) hdvd
    · exact ho.symm ▸ hle
  disjoint := by
    intro i j gv gv' o o' hne hgv hgv' ho ho'
    rw [hitems] at ho ho'
    rcases Nat.lt_or_gt_of_ne hne with hij | hij
    · exact Or.inl (address_lt (by omega) hij hgv hgv' ho ho')
    · exact Or.inr (address_lt (by omega) hij hgv' hgv ho' ho)

/-- The second pass, over the places of the first. -/
theorem imaged_of_items {mod : Module} {m m' : Mem} (hend : layoutEnd td mod.globals 8 ≤ 2 ^ 31)
    (hdefined : ∀ gv ∈ mod.globals, gv.init ≠ none) (hfit : ∀ gv ∈ mod.globals, ∀ c, gv.init = some c → Fits td c) (hm : Cleared m)
    (hsize : layoutEnd td mod.globals 8 ≤ m.size)
    (h : serializeGlobals td mod (layoutItems td mod.globals 0 8) (layoutItems td mod.globals 0 8) m = .ok m') (d : Word) :
    Imaged td mod { items := layoutItems td mod.globals 0 8, data := m', dataSize := d } := by
  have hmem : ∀ it ∈ layoutItems td mod.globals 0 8, ∃ gv c, mod.globals[it.value]? = some gv ∧ gv.init = some c ∧ Fits td c ∧
      it.size.toNat = td.abiSize gv.ty ∧ it.offset.toNat + td.abiSize gv.ty ≤ layoutEnd td mod.globals 8 := by
    intro it hit
    obtain ⟨j, gv, o, hgv, rfl, hle, hlast⟩ := mem_layoutItems hit
    obtain ⟨c, hc⟩ := Option.ne_none_iff_exists'.mp (hdefined gv (List.mem_of_getElem? hgv))
    refine ⟨gv, c, ?_, hc, hfit gv (List.mem_of_getElem? hgv) c hc, ?_, ?_⟩
    · rw [Nat.zero_add]
      exact hgv
    · exact Nat.mod_eq_of_lt (by omega)
    · change (BitVec.ofNat 32 o).toNat + td.abiSize gv.ty ≤ _
      rw [BitVec.toNat_ofNat, Nat.mod_eq_of_lt (by omega)]
      exact hlast
  obtain ⟨-, -, himages⟩ := (serializeGlobals_chain h).fill (P := fun it m => ∀ gv c, mod.globals[it.value]? = some gv → gv.init = some c →
    ImageAt td (refsOf (layoutItems td mod.globals 0 8) mod.funcs) m c it.offset.toNat) (fun it => it.offset.toNat) (fun it => it.size.toNat)
    (fun it hit m m' hsame himage gv c hgv hc => by
      obtain ⟨gv', c', hgv', -, -, hlen, -⟩ := hmem it hit
      obtain rfl : gv' = gv := Option.some.inj (hgv'.symm.trans hgv)
      exact imageAt_congr (hlen ▸ hsame) (himage gv' c hgv hc))
    ((pairwise_layoutItems td (by omega)).imp Or.inl)
    (fun it hit m m' hzero hstep => by
      obtain ⟨gv, c, hgv, hc, hfits, hlen, hlast⟩ := hmem it hit
      rw [hlen] at hzero ⊢
      obtain ⟨hwithin, himage⟩ := serializeConstant_image hfits (by omega) hzero (hstep gv c hgv hc)
      refine ⟨hwithin, fun gv' c' hgv' hc' => ?_⟩
      obtain rfl : gv = gv' := Option.some.inj (hgv.symm.trans hgv')
      obtain rfl : c = c' := Option.some.inj (hc.symm.trans hc')
      exact himage)
    fun it hit => by
      obtain ⟨gv, c, -, -, -, hlen, hlast⟩ := hmem it hit
      exact hm.zero.mono (Nat.zero_le _) (by omega)
  intro i gv c o hgv hc ho
  obtain ⟨k, hget, -⟩ := getElem_layoutItems td (i := 0) (n := 8) hgv
  have hfind := (find_layoutItems td mod.globals 0 8 i).trans hget
  rw [Nat.zero_add] at hfind hget
  obtain rfl := Option.some.inj ((congrArg (Option.map CgGlobal.offset) hfind).symm.trans ho)
  exact himages _ (List.mem_of_getElem? hget) gv c hgv hc

/-- The first pass lays the global variables out as numbers say, or rejects one. -/
theorem layOut_spec {mod : Module} (hend : layoutEnd td mod.globals 8 ≤ 2 ^ 31) {fuel : Nat} (hfuel : 32 ≤ fuel) :
    layOut td fuel mod ≠ .error .outOfFuel ∧ ∀ g, layOut td fuel mod = .ok g → mod.globals = [] ∨
      (g.items = layoutItems td mod.globals 0 8 ∧ LaidOut g (layoutEnd td mod.globals 8) ∧ ∀ gv ∈ mod.globals, gv.init ≠ none) := by
  have hcleared : Cleared { size := 0, byte := fun _ => 0#8 } := ⟨fun _ _ _ => rfl, Or.inl rfl⟩
  unfold layOut globalsGuard
  by_cases hany : (mod.globals.any fun gv => gv.init.isSome) = true
  · have hneed : (8#32).toNat ≤ 2 ^ 31 := by decide
    obtain ⟨data, hdata, hcleared', hsize, -⟩ := cgDataReserve_eq hneed hfuel hcleared
    have hlaid : LaidOut { items := [], data := data, dataSize := 8#32 } (8#32).toNat := ⟨hcleared', hsize, rfl⟩
    obtain ⟨hfuel', hok⟩ := layoutGlobals_spec hfuel (i := 0) hend hlaid
    rw [if_pos hany, hdata]
    exact ⟨hfuel', fun g h => Or.inr (hok g h)⟩
  · rw [if_neg hany]
    dsimp only
    cases hglobals : mod.globals with
    | nil =>
      refine ⟨fun h => ?_, fun _ _ => Or.inl rfl⟩
      cases h
    | cons gv gvs =>
      have hnone : gv.init = none := by
        rw [hglobals, List.any_cons, Bool.or_eq_true, not_or] at hany
        exact Option.not_isSome_iff_eq_none.mp hany.1
      rw [layoutGlobals, if_pos hnone]
      refine ⟨fun h => ?_, fun g h => ?_⟩
      · cases h
      · cases h

end GlobalsAux

open GlobalsAux

/-- The global variables of a module that end by 2³¹ are placed, unless the module is rejected. If their initialisers fit, what is in the
places is the images of these. -/
theorem globals_faithful (td : TargetData) (mod : Module) (hend : layoutEnd td mod.globals 8 ≤ 2 ^ 31) (fuel : Nat) (hfuel : 32 ≤ fuel) :
    layOut td fuel mod ≠ .error .outOfFuel ∧ (∀ g, layOut td fuel mod = .ok g → Placed td mod g) ∧
      ((∀ gv ∈ mod.globals, ∀ c, gv.init = some c → Fits td c) → ∀ g, cgCollectGlobals td fuel mod = .ok g → Placed td mod g ∧ Imaged td mod g) := by
  obtain ⟨hends, hok⟩ := layOut_spec hend hfuel
  have hplaced : ∀ g g' : CgGlobals, layOut td fuel mod = .ok g → g'.items = g.items → g'.dataSize = g.dataSize → Placed td mod g' := by
    intro g g' h hitems' hdata'
    rcases hok g h with hnil | ⟨hitems, hlaid, -⟩
    · constructor
      · intro i gv hgv
        rw [hnil] at hgv
        nomatch hgv
      · intro i j gv gv' o o' _ hgv
        rw [hnil] at hgv
        nomatch hgv
    · exact placed_of_items (hitems'.trans hitems) (hdata' ▸ hlaid.dataSize) hend
  refine ⟨hends, fun g h => hplaced g g h rfl rfl, fun hfit g h => ?_⟩
  unfold cgCollectGlobals at h
  split at h
  case h_2 => nomatch h
  case h_1 g₁ hlay =>
    split at h
    case h_2 => nomatch h
    case h_1 data hdata =>
      obtain rfl := Except.ok.inj h
      refine ⟨hplaced g₁ _ hlay rfl rfl, ?_⟩
      rcases hok g₁ hlay with hnil | ⟨hitems, hlaid, hdefined⟩
      · intro i gv c o hgv
        rw [hnil] at hgv
        nomatch hgv
      · rw [hitems] at hdata ⊢
        exact imaged_of_items hend hdefined hfit hlaid.cleared hlaid.size hdata _

/-! ## A target of 32 bits -/

/-- Where the first fields of a struct end, from their sizes and alignments. -/
def fieldsEnd {n : Nat} (sizes aligns : Fin n → Nat) : Nat → Nat
  | 0 => 0
  | k + 1 => if h : k < n then alignUp (fieldsEnd sizes aligns k) (aligns ⟨k, h⟩) + sizes ⟨k, h⟩ else fieldsEnd sizes aligns k

/-- The largest of some alignments. -/
def maxAlign {n : Nat} (aligns : Fin n → Nat) : Nat := (List.finRange n).foldl (fun a i => max a (aligns i)) 1

/-- The size and the alignment of a type: pointers of 32 bits, integers and doubles aligned to their size. -/
def layoutOf : Ty → Nat × Nat
  | .int w =>
    let align := if w ≤ 8 then 1 else if w ≤ 16 then 2 else if w ≤ 32 then 4 else 8
    (alignUp ((w + 7) / 8) align, align)
  | .float | .pointer => (4, 4)
  | .double => (8, 8)
  | .array n elem => (n * (layoutOf elem).1, (layoutOf elem).2)
  | .struct isPacked n fields =>
    let aligns := fun i => if isPacked then 1 else (layoutOf (fields i)).2
    (alignUp (fieldsEnd (fun i => (layoutOf (fields i)).1) aligns n) (maxAlign aligns), maxAlign aligns)
  | .vector lanes elem => (alignUp ((lanes * elem.bits 32 + 7) / 8) 8, 8)
  | .other => (16, 16)

section target32

/-- Fields end one behind the other. -/
theorem fieldsEnd_le {n : Nat} {sizes aligns : Fin n → Nat} (hpos : ∀ i, 0 < aligns i) {j k : Nat} (h : j ≤ k) :
    fieldsEnd sizes aligns j ≤ fieldsEnd sizes aligns k := by
  induction h with
  | refl => exact Nat.le_refl _
  | @step k _ ih =>
    refine Nat.le_trans ih ?_
    rw [fieldsEnd]
    split
    case isTrue hk =>
      have hup := le_alignUp (fieldsEnd sizes aligns k) (hpos ⟨k, hk⟩)
      omega
    case isFalse => exact Nat.le_refl _

/-- A field ends where the next one may begin. -/
theorem field_end {n : Nat} (sizes aligns : Fin n → Nat) (i : Fin n) :
    alignUp (fieldsEnd sizes aligns i) (aligns i) + sizes i = fieldsEnd sizes aligns (i + 1) := by
  rw [fieldsEnd, dif_pos i.isLt]

/-- Alignments of the target are powers of two, up to 16. -/
def IsAlign (a : Nat) : Prop := ∃ k, k < 32 ∧ a = 2 ^ k

/-- The largest of alignments is one. -/
theorem isAlign_maxAlign {n : Nat} {aligns : Fin n → Nat} (h : ∀ i, IsAlign (aligns i)) : IsAlign (maxAlign aligns) := by
  have hfold : ∀ (l : List (Fin n)) (a : Nat), IsAlign a → IsAlign (l.foldl (fun a i => max a (aligns i)) a) := by
    intro l
    induction l with
    | nil => exact fun a ha => ha
    | cons i l ih =>
      intro a ha
      refine ih _ ?_
      change IsAlign (max a (aligns i))
      rcases Nat.le_total a (aligns i) with hle | hle
      · rw [Nat.max_eq_right hle]
        exact h i
      · rw [Nat.max_eq_left hle]
        exact ha
  exact hfold _ 1 ⟨0, by decide, rfl⟩

/-- Each type has an alignment of the target. -/
theorem isAlign_layoutOf (t : Ty) : IsAlign (layoutOf t).2 := by
  induction t with
  | int w =>
    change IsAlign (if w ≤ 8 then 1 else if w ≤ 16 then 2 else if w ≤ 32 then 4 else 8)
    split
    · exact ⟨0, by decide, rfl⟩
    · split
      · exact ⟨1, by decide, rfl⟩
      · split
        · exact ⟨2, by decide, rfl⟩
        · exact ⟨3, by decide, rfl⟩
  | float => exact ⟨2, by decide, rfl⟩
  | pointer => exact ⟨2, by decide, rfl⟩
  | double => exact ⟨3, by decide, rfl⟩
  | array n elem ih => exact ih
  | struct isPacked n fields ih =>
    refine isAlign_maxAlign fun i => ?_
    cases isPacked with
    | true => exact ⟨0, by decide, rfl⟩
    | false => exact ih i
  | vector lanes elem => exact ⟨3, by decide, rfl⟩
  | other => exact ⟨4, by decide, rfl⟩

/-- An alignment is positive. -/
theorem IsAlign.pos {a : Nat} (h : IsAlign a) : 0 < a := by
  obtain ⟨k, -, rfl⟩ := h
  exact Nat.two_pow_pos k

/-- The alignments of the fields of a struct. -/
def fieldAligns (isPacked : Bool) {n : Nat} (fields : Fin n → Ty) (i : Fin n) : Nat := if isPacked then 1 else (layoutOf (fields i)).2

/-- So are those of fields, packed or not. -/
theorem fieldAligns_pos (isPacked : Bool) {n : Nat} (fields : Fin n → Ty) (i : Fin n) : 0 < fieldAligns isPacked fields i := by
  cases isPacked with
  | true => exact Nat.one_pos
  | false => exact (isAlign_layoutOf (fields i)).pos

end target32

/-- A target with pointers of 32 bits. A `float` is carried in the low word of a `double`. -/
def target32 : TargetData where
  abiSize t := (layoutOf t).1
  abiAlign t := (layoutOf t).2
  offsetOfElement isPacked _ fields i :=
    alignUp (fieldsEnd (fun i => (layoutOf (fields i)).1) (fieldAligns isPacked fields) i) (fieldAligns isPacked fields i)
  realGetDouble b := b.setWidth 64
  floatOfDouble d := if isSignaling (d.setWidth 32) then quiet (d.setWidth 32) else d.setWidth 32
  bits_le := by
    intro t
    cases t with
    | int w =>
      have hup := le_alignUp ((w + 7) / 8) (isAlign_layoutOf (.int w)).pos
      change w ≤ 8 * alignUp ((w + 7) / 8) (layoutOf (.int w)).2
      omega
    | vector lanes elem =>
      have hup : (lanes * elem.bits 32 + 7) / 8 ≤ alignUp ((lanes * elem.bits 32 + 7) / 8) 8 := le_alignUp _ (by decide)
      change lanes * elem.bits 32 ≤ 8 * alignUp ((lanes * elem.bits 32 + 7) / 8) 8
      omega
    | float | double | pointer | other => exact Nat.le_of_ble_eq_true rfl
    | array n elem => exact Nat.zero_le _
    | struct isPacked n fields => exact Nat.zero_le _
  int_size := by
    intro w hw
    have hle : (layoutOf (.int w)).2 ≤ 8 := by
      change (if w ≤ 8 then 1 else if w ≤ 16 then 2 else if w ≤ 32 then 4 else 8) ≤ 8
      split
      · decide
      · split
        · decide
        · split <;> decide
    have hlt : (w + 7) / 8 < 2 ^ 24 := by
      unfold maxIntBits at hw
      omega
    have hmod := Nat.div_mul_le_self ((w + 7) / 8 + (layoutOf (.int w)).2 - 1) (layoutOf (.int w)).2
    change ((w + 7) / 8 + (layoutOf (.int w)).2 - 1) / (layoutOf (.int w)).2 * (layoutOf (.int w)).2 < 2 ^ 32
    omega
  float_size := rfl
  double_size := rfl
  array_size _ _ := rfl
  field_le := by
    intro p n fs i
    rw [field_end]
    have hle : fieldsEnd (fun i => (layoutOf (fs i)).1) (fieldAligns p fs) (i + 1) ≤ fieldsEnd (fun i => (layoutOf (fs i)).1) (fieldAligns p fs) n :=
      fieldsEnd_le (fieldAligns_pos p fs) (Nat.succ_le_of_lt i.isLt)
    exact Nat.le_trans hle (le_alignUp _ (isAlign_layoutOf (.struct p n fs)).pos)
  field_lt := by
    intro p n fs i j hij
    rw [field_end]
    have hle : fieldsEnd (fun i => (layoutOf (fs i)).1) (fieldAligns p fs) (i + 1) ≤ fieldsEnd (fun i => (layoutOf (fs i)).1) (fieldAligns p fs) j :=
      fieldsEnd_le (fieldAligns_pos p fs) (Nat.succ_le_of_lt (Fin.lt_def.mp hij))
    exact Nat.le_trans hle (le_alignUp _ (fieldAligns_pos p fs j))
  abiAlign_pow := isAlign_layoutOf
  float_roundtrip := by
    intro b
    rw [BitVec.setWidth_setWidth_of_le _ (by decide), BitVec.setWidth_eq]

/-- An entry of a table: a string and an integer. -/
def entry : Ty := .struct false 2 ![.pointer, .int 32]

/-- A pointer to an entry of a table that follows it, and the table with its string. -/
def globptr : Module where
  globals :=
    [{ ty := .pointer, align := 0, init := some (.gep (.array 2 entry) (some 0) (.elem 1 .nil) (.global 1)), align_pow := .inl rfl },
     { ty := .array 2 entry, align := 16
       init := some (.array ![.zero _, .struct fun | 0 => .global 2 | 1 => .int (by decide) 20#32])
       align_pow := .inr ⟨4, by decide, rfl⟩ },
     { ty := .array 2 (.int 8), align := 0, init := some (.array ![.int (by decide) 66#8, .int (by decide) 0#8]), align_pow := .inl rfl }]
  funcs := []

/-- The integers in it fit, and it has no casts. -/
theorem fits_globptr : ∀ gv ∈ globptr.globals, ∀ c, gv.init = some c → Fits target32 c := by
  intro gv hgv c hc
  simp only [globptr, List.mem_cons, List.not_mem_nil, or_false] at hgv
  rcases hgv with rfl | rfl | rfl
  · obtain rfl := Option.some.inj hc
    exact trivial
  · obtain rfl := Option.some.inj hc
    rw [Fits]
    refine Fin.forall_fin_two.mpr ⟨trivial, ?_⟩
    change Fits target32 (.struct _)
    rw [Fits]
    refine Fin.forall_fin_two.mpr ⟨trivial, ?_⟩
    change (20#32).toNat < 2 ^ 64
    decide
  · obtain rfl := Option.some.inj hc
    rw [Fits]
    refine Fin.forall_fin_two.mpr ⟨?_, ?_⟩
    · change (66#8).toNat < 2 ^ 64
      decide
    · change (0#8).toNat < 2 ^ 64
      decide

theorem globals_faithful_globptr : (∃ g, cgCollectGlobals target32 32 globptr = .ok g) ∧
    ∀ g, cgCollectGlobals target32 32 globptr = .ok g → Placed target32 globptr g ∧ Imaged target32 globptr g := by
  have hend : layoutEnd target32 globptr.globals 8 ≤ 2 ^ 31 := by decide
  have hok : (cgCollectGlobals target32 32 globptr).isOk = true := rfl
  constructor
  · cases h : cgCollectGlobals target32 32 globptr with
    | ok g => exact ⟨g, rfl⟩
    | error e =>
      rw [h] at hok
      nomatch hok
  · exact (globals_faithful target32 globptr hend 32 (by decide)).2.2 fits_globptr

/-- A table whose first byte is the low byte of the address of the last global variable, and a buffer before that. -/
def narrowed : Module where
  globals :=
    [{ ty := .struct false 2 ![.int 8, .array 3 (.int 8)], align := 0
       init := some (.struct fun | 0 => .cast .ptrToInt (.int 8) (.global 2) rfl rfl | 1 => .zero _), align_pow := .inl rfl },
     { ty := .array 300 (.int 8), align := 0, init := some (.zero _), align_pow := .inl rfl },
     { ty := .int 8, align := 0, init := some (.int (by decide) 0#8), align_pow := .inl rfl }]
  funcs := []

/-- The next byte of the address is left in the bytes that are 0. -/
theorem narrowed_spills : ¬∀ (td : TargetData) (mod : Module), (mod.globals.map fun gv => td.abiSize gv.ty).sum ≤ 2 ^ 31 →
    ∀ fuel, 32 ≤ fuel → ∀ g, cgCollectGlobals td fuel mod = .ok g → Placed td mod g ∧ Imaged td mod g := by
  intro hall
  have hrun : ((cgCollectGlobals target32 32 narrowed).toOption.any fun g =>
      (refsOf g.items narrowed.funcs).address 0 == some 8#32 && g.data.byte 9 == 1#8) = true := by decide +kernel
  cases hg : cgCollectGlobals target32 32 narrowed with
  | ok g =>
    rw [hg, Except.toOption, Option.any_some, Bool.and_eq_true, beq_iff_eq, beq_iff_eq] at hrun
    have himage := (hall target32 narrowed (by decide) 32 (by decide) g hg).2 0 _ _ _ rfl rfl hrun.1
    rw [ImageAt] at himage
    have hzero := himage 1
    change ImageAt target32 _ g.data (.zero (.array 3 (.int 8))) 9 at hzero
    rw [ImageAt] at hzero
    have hbyte : g.data.byte 9 = 0#8 := hzero 0 (by decide)
    rw [hrun.2] at hbyte
    cases hbyte
  | error e =>
    rw [hg] at hrun
    cases hrun

end CronoVM.Globals
