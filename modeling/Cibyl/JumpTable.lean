import Cibyl.CallTableComplete
import Cibyl.CatchTable
import Cibyl.Library.BinarySearch

namespace Cibyl
set_option autoImplicit true

open BinarySearch (Ascending bsearch bsearch_isSome_iff)
open CibylElf (Sorted)
open Controller (Lookups InData addJumptabLabel)
open OptionFold

namespace CodeBlock

def uint32Cmp (a b : Word) : Int := (a - b).toInt

def hasJumptabLabel (jumptabLabels : List Word) (addr : Word) : Bool :=
  (bsearch (uint32Cmp addr) jumptabLabels).isSome

/-- No two of the addresses lie 2 GiB apart. -/
def Near (as : List Word) : Prop := ∀ a ∈ as, ∀ b ∈ as, a.toNat < b.toNat + 2 ^ 31

theorem uint32Cmp_eq_zero {a b : Word} : uint32Cmp a b = 0 ↔ a = b := by
  rw [uint32Cmp]
  constructor
  · intro h
    have hz : a - b = 0 := BitVec.eq_of_toInt_eq h
    have he := BitVec.sub_add_cancel a b
    rw [hz] at he
    simpa using he.symm
  · rintro rfl
    rw [BitVec.sub_self]
    rfl

/-- Below 2 GiB the difference as an `int` compares two addresses. -/
theorem uint32Cmp_near {a b : Word} (h : a.toNat < b.toNat + 2 ^ 31)
    (h' : b.toNat < a.toNat + 2 ^ 31) : uint32Cmp a b = (a.toNat : Int) - b.toNat := by
  have ha := a.isLt
  have hb := b.isLt
  rw [uint32Cmp, BitVec.toInt_eq_toNat_cond, BitVec.toNat_sub]
  split <;> omega

theorem Near.ascending (hn : Near as) (hs : Sorted uint32Cmp as labels) (ha : addr ∈ as) :
    Ascending (uint32Cmp addr) labels := by
  obtain ⟨hperm, hpair⟩ := hs
  refine hpair.imp_of_mem fun {x y} hx hy hxy => ?_
  have hx := hperm.subset hx
  have hy := hperm.subset hy
  rw [uint32Cmp_near (hn x hx y hy) (hn y hy x hx)] at hxy
  rw [uint32Cmp_near (hn addr ha x hx) (hn x hx addr ha),
    uint32Cmp_near (hn addr ha y hy) (hn y hy addr ha)]
  omega

/-- The bisection finds the labels that were added. -/
theorem hasJumptabLabel_iff (hn : Near as) (hs : Sorted uint32Cmp as labels) :
    hasJumptabLabel labels addr = true ↔ addr ∈ as := by
  constructor
  · intro h
    obtain ⟨i, hi⟩ := Option.isSome_iff_exists.mp h
    obtain ⟨x, hx, hc⟩ := BinarySearch.searchIn_some hi
    rw [uint32Cmp_eq_zero.mp hc]
    exact hs.1.subset (List.mem_of_getElem? hx)
  · intro h
    refine (bsearch_isSome_iff (hn.ascending hs h)).mpr ⟨addr, hs.1.symm.subset h, ?_⟩
    exact uint32Cmp_eq_zero.mpr rfl

end CodeBlock

namespace Controller

/-- The labels of method `idx` in class `k`. -/
def Lookups.labelsOf (l : Lookups) (k idx : Nat) : List Word :=
  (l.methodLabels.filter (fun x => x.2 = (k, idx))).map Prod.fst

theorem mem_labelsOf {l : Lookups} : v ∈ l.labelsOf k idx ↔ (v, k, idx) ∈ l.methodLabels := by
  simp [Lookups.labelsOf]

theorem mem_addJumptabLabel [BEq α] [LawfulBEq α] {xs : List α} :
    x ∈ addJumptabLabel xs y ↔ x ∈ xs ∨ x = y := by
  rw [addJumptabLabel]
  split
  · next h =>
    have hy := List.contains_iff_mem.mp h
    exact ⟨.inl, fun h => h.elim id fun he => he ▸ hy⟩
  · rw [List.mem_append, List.mem_singleton]

/-- The tables of the labels that `pass1` collects for method number `idx` of class `k`, each of
them sorted, and what `pass2` reads from them. -/
structure Collected (c : Controller) (l : Lookups) (text : List Word) (array : List Entry)
    (env : Env) (cl : List JavaMethod) (k idx : Nat) (m : JavaMethod) : Prop where
  pass0 : Controller.pass0 c.base text = some array
  textSize : c.textSize = BitVec.ofNat 32 (4 * text.length)
  aligned : c.base &&& 3 = 0
  fits : c.base.toNat + 4 * text.length < 2 ^ 32
  class_ : c.classes[k]? = some cl
  method : cl[idx]? = some m
  made : m.Made array
  parts : m.Of array
  lookups : ∃ t, c.scns.foldlM c.lookupDataAddresses ⟨t, [], []⟩ = some l
  hasLabel : ∃ labels, Sorted CodeBlock.uint32Cmp l.jumptabLabels labels ∧
    ∀ a, env.hasJumptabLabel a = CodeBlock.hasJumptabLabel labels a
  labels : Sorted CodeBlock.uint32Cmp (l.labelsOf k idx) (env.jumptabLabels m)

/-- A label of a method is one of the program, and the lookup in its class finds that method. -/
def LabelsFound (c : Controller) (l : Lookups) : Prop :=
  ∀ v k idx, (v, k, idx) ∈ l.methodLabels → v ∈ l.jumptabLabels ∧
    ∃ cl, c.classes[k]? = some cl ∧ c.findInClass cl v = some idx

variable {c : Controller}

theorem lookupInClass_found (hcl : (cl, k) ∈ c.classes.zipIdx) (hl : c.LabelsFound l)
    (h : c.lookupInClass v l (cl, k) = some l') : c.LabelsFound l' := by
  rw [lookupInClass] at h
  split at h
  · cases h
    exact hl
  · next idx mt hm =>
    split at h
    · cases h
    · cases h
      obtain ⟨i, hi, he⟩ := Option.bind_eq_some_iff.mp hm
      obtain ⟨mt', -, he⟩ := Option.map_eq_some_iff.mp he
      cases he
      intro v' k' idx' hv
      rcases mem_addJumptabLabel.mp hv with hv | hv
      · obtain ⟨hj, hf⟩ := hl v' k' idx' hv
        exact ⟨mem_addJumptabLabel.mpr (.inl hj), hf⟩
      · cases hv
        exact ⟨mem_addJumptabLabel.mpr (.inr rfl), cl, List.mem_zipIdx_iff_getElem?.mp hcl, hi⟩

theorem lookupDataAddress_found (hl : c.LabelsFound l) (h : c.lookupDataAddress l v = some l') :
    c.LabelsFound l' := by
  rw [lookupDataAddress] at h
  split at h
  · exact foldlM_keeps (I := c.LabelsFound) (fun s x s' hx hs h => lookupInClass_found hx hs h) hl h
  · cases h
    exact hl

theorem lookups_found {scns : List ElfSection}
    (h : scns.foldlM c.lookupDataAddresses ⟨t, [], []⟩ = some l) : c.LabelsFound l :=
  foldlM_keeps (I := c.LabelsFound) (fun _ _ _ _ hs h => foldlM_keeps (I := c.LabelsFound)
    (fun _ _ _ _ hs h => lookupDataAddress_found hs h) hs h)
    (fun _ _ _ hv => absurd hv List.not_mem_nil) h

/-- No label of a method is lost. -/
theorem lookupInClass_subset (h : c.lookupInClass v l cl = some l') :
    l.methodLabels ⊆ l'.methodLabels := by
  rw [lookupInClass] at h
  split at h
  · cases h
    exact List.Subset.refl _
  · split at h
    · cases h
    · cases h
      exact fun x hx => mem_addJumptabLabel.mpr (.inl hx)

theorem lookupDataAddress_subset (h : c.lookupDataAddress l v = some l') :
    l.methodLabels ⊆ l'.methodLabels := by
  rw [lookupDataAddress] at h
  split at h
  · exact foldlM_keeps (I := fun s => l.methodLabels ⊆ s.methodLabels)
      (fun _ _ _ _ hs h => List.Subset.trans hs (lookupInClass_subset h)) (List.Subset.refl _) h
  · cases h
    exact List.Subset.refl _

theorem lookupDataAddresses_subset (h : c.lookupDataAddresses l scn = some l') :
    l.methodLabels ⊆ l'.methodLabels :=
  foldlM_keeps (I := fun s => l.methodLabels ⊆ s.methodLabels)
    (fun _ _ _ _ hs h => List.Subset.trans hs (lookupDataAddress_subset h)) (List.Subset.refl _) h

theorem lookupInClass_label (hm : cl[idx]? = some m) (hf : c.findInClass cl v = some idx)
    (h : c.lookupInClass v l (cl, k) = some l') : (v, k, idx) ∈ l'.methodLabels := by
  simp only [lookupInClass, hf, Option.bind_some, hm, Option.map_some] at h
  split at h
  · cases h
  · cases h
    exact mem_addJumptabLabel.mpr (.inr rfl)

/-- An address in data that lies in the text section becomes a label of the method that its
class finds. -/
theorem lookups_label (hk : c.classes[k]? = some cl) (hm : cl[idx]? = some m)
    (hf : c.findInClass cl v = some idx) (hd : InData c.scns v)
    (ht : (c.base.toNat ≤ v.toNat ∧ v.toNat < c.textEnd.toNat) ∧ v &&& 3 = 0)
    (h : c.scns.foldlM c.lookupDataAddresses ⟨t, [], []⟩ = some l) :
    (v, k, idx) ∈ l.methodLabels := by
  obtain ⟨scn, hscn, j, hj, hv⟩ := hd
  have hword := words_mem scn.data hj
  rw [hv] at hword
  have haddress (s s' : Lookups) (h : c.lookupDataAddress s v = some s') :
      (v, k, idx) ∈ s'.methodLabels := by
    rw [lookupDataAddress, if_pos ht] at h
    exact foldlM_reaches (I := fun _ => True) (Q := fun s => (v, k, idx) ∈ s.methodLabels)
      (fun _ _ _ _ _ _ => trivial) (List.mem_zipIdx_iff_getElem?.mpr hk)
      (fun _ _ _ h => lookupInClass_label hm hf h) (fun _ _ _ _ h hq => lookupInClass_subset h hq)
      trivial h
  have hscn' (s s' : Lookups) (h : c.lookupDataAddresses s scn = some s') :
      (v, k, idx) ∈ s'.methodLabels :=
    foldlM_reaches (I := fun _ => True) (Q := fun s => (v, k, idx) ∈ s.methodLabels)
      (fun _ _ _ _ _ _ => trivial) hword (fun s s' _ h => haddress s s' h)
      (fun _ _ _ _ h hq => lookupDataAddress_subset h hq) trivial h
  exact foldlM_reaches (I := fun _ => True) (Q := fun s => (v, k, idx) ∈ s.methodLabels)
    (fun _ _ _ _ _ _ => trivial) hscn (fun s s' _ h => hscn' s s' h)
    (fun _ _ _ _ h hq => lookupDataAddresses_subset h hq) trivial h

section

variable {text : List Word} {array : List Entry} {m : JavaMethod}

/-- An instruction of a method stands in the text section. -/
theorem Collected.inText (h : c.Collected l text array env cl k idx m) (hs : i ∈ m.insns env)
    (hk : i.kind ≠ .delaySlotNop) :
    (c.base.toNat ≤ i.address.toNat ∧ i.address.toNat < c.textEnd.toNat) ∧
      i.address &&& 3 = 0 := by
  have hi : i.address ∈ ((m.slots env).flatMap Entry.emitted).map Instruction.address := by
    obtain ⟨e, he, hi⟩ := JavaMethod.mem_insns_slot.mp hs
    refine List.mem_map_of_mem (List.mem_flatMap.mpr ⟨e, he, List.mem_filter.mpr ⟨hi, ?_⟩⟩)
    exact bne_iff_ne.mpr hk
  rw [Entry.flatMap_emitted (m.slots_replaced env) fun e he =>
    Controller.pass0_slot h.pass0 (h.parts.disjoint.subset he)] at hi
  obtain ⟨insns, hd, ha⟩ := Option.map_eq_some_iff.mp h.pass0
  have hsub := (subperm_flatMap h.parts.disjoint Entry.emitted).subset
  have hi := List.map_subset Instruction.address hsub hi
  rw [← ha, emitted_attachDelaySlots (fun i hi => create_not_delaySlotNop
    (Controller.mem_decode hd hi).choose_spec.2), Controller.decode_addresses hd] at hi
  obtain ⟨n, hn, hi⟩ := List.mem_map.mp hi
  have hn := List.mem_range.mp hn
  rw [← hi]
  exact text_word h.fits h.textSize h.aligned hn

/-- The method's table has the addresses in data that the lookup in its class finds there. -/
theorem Collected.mem_labels (h : c.Collected l text array env cl k idx m)
    (hs : i ∈ m.insns env) (hk : i.kind ≠ .delaySlotNop) (hd : InData c.scns i.address) :
    i.address ∈ env.jumptabLabels m ↔ c.findInClass cl i.address = some idx := by
  obtain ⟨t, hl⟩ := h.lookups
  rw [h.labels.1.mem_iff, mem_labelsOf]
  constructor
  · intro hm
    obtain ⟨-, cl', hcl, hf⟩ := lookups_found hl _ _ _ hm
    cases Option.some.inj (h.class_.symm.trans hcl)
    exact hf
  · intro hf
    exact lookups_label h.class_ h.method hf hd (h.inText hs hk) hl

/-- A label of the method is one that the bisection finds. -/
theorem Collected.hasJumptabLabel (h : c.Collected l text array env cl k idx m)
    (hn : CodeBlock.Near l.jumptabLabels) (hv : v ∈ env.jumptabLabels m) :
    env.hasJumptabLabel v = true := by
  obtain ⟨t, hl⟩ := h.lookups
  obtain ⟨labels, hs, he⟩ := h.hasLabel
  rw [he, CodeBlock.hasJumptabLabel_iff hn hs]
  exact (lookups_found hl _ _ _ (mem_labelsOf.mp (h.labels.1.mem_iff.mp hv))).1

end

end Controller

end Cibyl
