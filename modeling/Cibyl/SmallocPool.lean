import Cibyl.Library.Tiling
import Cibyl.Smalloc

namespace Cibyl
set_option autoImplicit true

namespace Smalloc

/-- A block of the pool, free or handed out. -/
structure Block where
  node : Node
  isFree : Bool

namespace Block

def lo (b : Block) : Nat := b.node.addr

def hi (b : Block) : Nat := b.node.addr + overhead + b.node.rsize

end Block

def frees (bs : List Block) : List Node := (bs.filter Block.isFree).map Block.node

def useds (bs : List Block) : List Node := (bs.filter (fun b => !b.isFree)).map Block.node

/-- The blocks fill the pool, highest first. -/
abbrev Fills (start stop : Nat) (bs : List Block) : Prop := Tiles Block.lo Block.hi start stop bs

/-- No two free blocks are neighbours. -/
def Apart (bs : List Block) : Prop :=
  bs.IsChain (fun x y => ¬ (x.isFree = true ∧ y.isFree = true))

section

variable {b x y : Block} {bs X Y : List Block} {n c : Node}

@[simp] theorem frees_nil : frees [] = [] := rfl

@[simp] theorem useds_nil : useds [] = [] := rfl

@[simp] theorem frees_append (X Y : List Block) : frees (X ++ Y) = frees X ++ frees Y := by
  simp [frees]

@[simp] theorem useds_append (X Y : List Block) : useds (X ++ Y) = useds X ++ useds Y := by
  simp [useds]

theorem frees_cons_free (h : b.isFree = true) (bs : List Block) :
    frees (b :: bs) = b.node :: frees bs := by
  simp [frees, h]

theorem frees_cons_used (h : b.isFree = false) (bs : List Block) :
    frees (b :: bs) = frees bs := by
  simp [frees, h]

theorem useds_cons_free (h : b.isFree = true) (bs : List Block) :
    useds (b :: bs) = useds bs := by
  simp [useds, h]

theorem useds_cons_used (h : b.isFree = false) (bs : List Block) :
    useds (b :: bs) = b.node :: useds bs := by
  simp [useds, h]

theorem mem_frees : n ∈ frees bs ↔ ∃ b ∈ bs, b.isFree = true ∧ b.node = n := by
  simp [frees, and_assoc]

theorem mem_useds : n ∈ useds bs ↔ ∃ b ∈ bs, b.isFree = false ∧ b.node = n := by
  simp [useds, and_assoc]

theorem Node.address_eq (h : n.addr + overhead < 2 ^ 31) : n.address = n.addr + overhead := by
  have hb : Int.bmod ((n.addr + overhead : Nat) : Int) (2 ^ 32) = (n.addr + overhead : Nat) :=
    Int.bmod_eq_of_le (by omega) (by omega)
  exact hb

/-- The nodes of a list on both sides of one. -/
structure Splits (A B : List Node) (n : Node) : Prop where
  above : ∀ a ∈ A, a.address > n.address
  below : ∀ b ∈ B, ¬ b.address > n.address

namespace Splits

variable {A B : List Node}

theorem higher (h : Splits A B n) : higher (A ++ B) n = A := by
  rw [Smalloc.higher, List.takeWhile_append_of_pos fun a ha => decide_eq_true (h.above a ha)]
  cases B with
  | nil => simp
  | cons b B => simp [h.below b (List.mem_cons_self ..)]

theorem lower (h : Splits A B n) : lower (A ++ B) n = B := by
  rw [Smalloc.lower, List.dropWhile_append_of_pos fun a ha => decide_eq_true (h.above a ha)]
  cases B with
  | nil => rfl
  | cons b B => simp [h.below b (List.mem_cons_self ..)]

theorem insertAllocated (h : Splits A B n) : insertAllocated (A ++ B) n = A ++ n :: B := by
  rw [Smalloc.insertAllocated, h.higher, h.lower]

/-- `delete` removes the first node that is not above. -/
theorem delete (h : Splits A (c :: B) n) : delete (A ++ c :: B) n = some (A ++ B) := by
  obtain ⟨ha, hb⟩ := h
  induction A with
  | nil => exact if_neg (hb c (List.mem_cons_self ..))
  | cons a A ih =>
    rw [List.cons_append, Smalloc.delete, if_pos (ha a (List.mem_cons_self ..)),
      ih fun x hx => ha x (List.mem_cons_of_mem _ hx)]
    rfl

end Splits

/-- A block in the pool has its addresses below those of an `int`. -/
theorem Fills.bounds (h : Fills start stop bs) (hb : b ∈ bs) :
    start ≤ b.node.addr ∧ b.node.addr + overhead + b.node.rsize ≤ stop := by
  obtain ⟨h₁, -, h₂⟩ := h.mem hb
  exact ⟨h₁, h₂⟩

theorem Block.lo_lt_hi (b : Block) : b.lo < b.hi := by
  rw [lo, hi, overhead]
  omega

variable {start stop : Nat}

theorem Fills.address (h : Fills start stop bs) (hs : stop < 2 ^ 31) (hb : b ∈ bs) :
    b.node.address = b.node.addr + overhead := by
  have hbd := h.bounds hb
  exact Node.address_eq (by omega)

/-- A block of the pool splits the blocks of either list. -/
theorem Fills.order (h : Fills start stop (X ++ b :: Y)) (hs : stop < 2 ^ 31) :
    (∀ x ∈ X, x.node.address > b.node.address) ∧ ∀ y ∈ Y, y.node.address < b.node.address := by
  have hpair := List.pairwise_append.mp h.pairwise
  have hb := h.address hs (List.mem_append_right _ (List.mem_cons_self ..))
  refine ⟨fun x hx => ?_, fun y hy => ?_⟩
  · have hlt := hpair.2.2 x hx b (List.mem_cons_self ..)
    have hx := h.address hs (List.mem_append_left _ hx)
    rw [Block.hi, Block.lo, overhead] at hlt
    omega
  · have hlt := (List.pairwise_cons.mp hpair.2.1).1 y hy
    have hy := h.address hs (List.mem_append_right _ (List.mem_cons_of_mem _ hy))
    rw [Block.hi, Block.lo, overhead] at hlt
    omega

theorem Fills.splits_frees (h : Fills start stop (X ++ b :: Y)) (hs : stop < 2 ^ 31) :
    Splits (frees X) (frees Y) b.node := by
  obtain ⟨hx, hy⟩ := h.order hs
  constructor
  · intro a ha
    obtain ⟨x, hm, -, rfl⟩ := mem_frees.mp ha
    exact hx x hm
  · intro a ha
    obtain ⟨y, hm, -, rfl⟩ := mem_frees.mp ha
    exact (hy y hm).not_gt

theorem Fills.splits_useds (h : Fills start stop (X ++ b :: Y)) (hs : stop < 2 ^ 31) :
    Splits (useds X) (useds Y) b.node := by
  obtain ⟨hx, hy⟩ := h.order hs
  constructor
  · intro a ha
    obtain ⟨x, hm, -, rfl⟩ := mem_useds.mp ha
    exact hx x hm
  · intro a ha
    obtain ⟨y, hm, -, rfl⟩ := mem_useds.mp ha
    exact (hy y hm).not_gt

theorem Splits.cons {A B : List Node} (h : Splits A B n) (hc : c.address = n.address) :
    Splits A (c :: B) n := by
  refine ⟨h.above, fun b hb => ?_⟩
  rcases List.mem_cons.mp hb with rfl | hb
  · rw [hc]
    exact lt_irrefl _
  · exact h.below b hb

/-- The block below is not free. -/
def HeadUsed (Y : List Block) : Prop := ∀ y ∈ Y.head?, y.isFree = false

/-- The block above is not free. -/
def LastUsed (X : List Block) : Prop := ∀ x ∈ X.getLast?, x.isFree = false

theorem u32_eq (h : k < 2 ^ 32) : u32 k = k := Nat.mod_eq_of_lt h

theorem Fills.adjacent_iff (h : Fills start stop bs) (hs : stop < 2 ^ 31) (hx : x ∈ bs) (n : Node) :
    x.node.adjacent n = true ↔ x.hi = n.addr := by
  have hbd := h.bounds hx
  rw [Node.adjacent, u32_eq (by omega), beq_iff_eq]
  rfl

/-- Only a neighbour is adjacent. -/
theorem Fills.not_adjacent_below (h : Fills start stop (X ++ b :: Y)) (hs : stop < 2 ^ 31)
    (hy : HeadUsed Y) (hc : c ∈ frees Y) : c.adjacent b.node = false := by
  obtain ⟨y, hm, hfree, rfl⟩ := mem_frees.mp hc
  rw [Bool.eq_false_iff, Ne,
    h.adjacent_iff hs (List.mem_append_right _ (List.mem_cons_of_mem _ hm))]
  intro he
  obtain ⟨-, -, hY⟩ := h.around
  cases Y with
  | nil => cases hm
  | cons u Y =>
    have hu : u.isFree = false := hy u rfl
    obtain ⟨hut, hul, hY⟩ := Tiles.cons_iff.mp hY
    rcases List.mem_cons.mp hm with rfl | hm
    · rw [hu] at hfree
      cases hfree
    · have hle := (hY.mem hm).2.2
      rw [he] at hle
      exact absurd (hul.trans_eq hut) hle.not_gt

theorem Fills.not_adjacent_above (h : Fills start stop (X ++ b :: Y)) (hs : stop < 2 ^ 31)
    (hx : LastUsed X) (hc : c ∈ frees X) : b.node.adjacent c = false := by
  obtain ⟨x, hm, hfree, rfl⟩ := mem_frees.mp hc
  rw [Bool.eq_false_iff, Ne, h.adjacent_iff hs (List.mem_append_right _ (List.mem_cons_self ..))]
  intro he
  obtain ⟨hX, -, -⟩ := h.around
  rcases List.eq_nil_or_concat X with rfl | ⟨X', u, rfl⟩
  · cases hm
  · have hu : u.isFree = false := hx u (by rw [List.concat_eq_append, List.getLast?_concat]; rfl)
    rw [List.concat_eq_append] at hX hm
    obtain ⟨hX', hul, hut⟩ := Tiles.around hX
    rcases List.mem_append.mp hm with hm | hm
    · have hle := (hX'.mem hm).1
      have hub : b.hi = u.lo := Tiles.nil_iff.mp hut
      have hxl : b.hi = x.lo := he
      rw [← hxl, hub] at hle
      exact absurd hul hle.not_gt
    · cases List.mem_singleton.mp hm
      rw [hu] at hfree
      cases hfree

/-- Two neighbours as one block. -/
theorem Fills.grow (h : Fills start stop (X ++ b :: x :: Y)) (hs : stop < 2 ^ 31) (t : Bool) :
    x.node.adjacent b.node = true ∧ Fills start stop (X ++ ⟨x.node.grow b.node, t⟩ :: Y) := by
  have hb := h.bounds (List.mem_append_right _ (List.mem_cons_self ..))
  have hx : x ∈ X ++ b :: x :: Y :=
    List.mem_append_right _ (List.mem_cons_of_mem _ (List.mem_cons_self ..))
  obtain ⟨hX, hlt, hY⟩ := h.around
  obtain ⟨hxb, hxl, hY⟩ := Tiles.cons_iff.mp hY
  refine ⟨(h.adjacent_iff hs hx _).mpr hxb, ?_⟩
  have hhi : Block.hi ⟨x.node.grow b.node, t⟩ = b.hi := by
    rw [Block.hi, Block.lo] at hxb
    rw [Block.hi, Block.hi, Node.grow]
    dsimp only
    rw [u32_eq (by omega)]
    omega
  exact Tiles.middle (hhi ▸ hX) (Block.lo_lt_hi _) hY

theorem Fills.mark (h : Fills start stop (X ++ b :: Y)) (t : Bool) :
    Fills start stop (X ++ ⟨b.node, t⟩ :: Y) := by
  obtain ⟨hX, hlt, hY⟩ := h.around
  have hb : Tiles Block.lo Block.hi start stop (X ++ ⟨b.node, t⟩ :: Y) := Tiles.middle hX hlt hY
  exact hb

theorem Fills.addr_ne (h : Fills start stop (X ++ b :: Y)) :
    (∀ c ∈ frees X, c.addr ≠ b.node.addr) ∧ ∀ c ∈ frees Y, c.addr ≠ b.node.addr := by
  obtain ⟨hX, hlt, hY⟩ := h.around
  refine ⟨fun c hc he => ?_, fun c hc he => ?_⟩
  · obtain ⟨x, hx, -, rfl⟩ := mem_frees.mp hc
    exact (hlt.trans_le (hX.mem hx).1).ne' he
  · obtain ⟨y, hy, -, rfl⟩ := mem_frees.mp hc
    have hy := hY.mem hy
    exact (hy.2.1.trans_le hy.2.2).ne he

theorem update_middle {A B : List Node} (hA : ∀ c ∈ A, c.addr ≠ n.addr)
    (hB : ∀ c ∈ B, c.addr ≠ n.addr) (f : Node → Node) :
    update n.addr f (A ++ n :: B) = A ++ f n :: B := by
  have hid (l : List Node) (h : ∀ c ∈ l, c.addr ≠ n.addr) :
      l.map (fun c => if c.addr = n.addr then f c else c) = l := by
    induction l with
    | nil => rfl
    | cons c l ih =>
      rw [List.map_cons, if_neg (h c (List.mem_cons_self ..)),
        ih fun x hx => h x (List.mem_cons_of_mem _ hx)]
  rw [update, List.map_append, List.map_cons, hid A hA, hid B hB, if_pos rfl]

theorem insertNew_plain (h : Fills start stop (X ++ b :: Y)) (hs : stop < 2 ^ 31)
    (hx : LastUsed X) :
    insertNew (frees X ++ frees Y) b.node = some (frees X ++ b.node :: frees Y) := by
  have hsp := h.splits_frees hs
  rw [insertNew, hsp.higher, hsp.lower]
  cases hl : (frees X).getLast? with
  | none => rfl
  | some p =>
    have ha := h.not_adjacent_above hs hx (List.mem_of_getLast? hl)
    dsimp only
    rw [ha, if_neg Bool.false_ne_true]

/-- The block above is taken out of the list, and becomes part of the block. -/
theorem delete_grow (h : Fills start stop (X ++ x :: b :: Y)) (hs : stop < 2 ^ 31)
    (hb : b.isFree = true) :
    (delete (frees X ++ x.node :: (b.node :: frees Y)) x.node).map
        (update b.node.addr (·.grow x.node)) =
      some (frees X ++ b.node.grow x.node :: frees Y) := by
  have hsp := h.splits_frees hs
  rw [frees_cons_free hb] at hsp
  have hb' : Fills start stop ((X ++ [x]) ++ b :: Y) := by
    rw [List.append_assoc]
    exact h
  obtain ⟨hA, hB⟩ := hb'.addr_ne
  rw [(hsp.cons rfl).delete, Option.map_some, update_middle (fun c hc => hA c ?_) hB]
  rw [frees_append]
  exact List.mem_append_left _ hc

theorem insertNew_grow (h : Fills start stop (X ++ x :: b :: Y)) (hs : stop < 2 ^ 31)
    (hx : x.isFree = true) (hb : b.isFree = true) :
    insertNew (frees (X ++ [x]) ++ frees Y) b.node =
      some (frees X ++ b.node.grow x.node :: frees Y) := by
  have hb' : Fills start stop ((X ++ [x]) ++ b :: Y) := by
    rw [List.append_assoc]
    exact h
  have hsp := hb'.splits_frees hs
  have hl : frees (X ++ [x]) = frees X ++ [x.node] := by
    rw [frees_append, frees_cons_free hx, frees_nil]
  have hdel := delete_grow h hs hb
  rw [insertNew, hsp.higher, hsp.lower, hl, List.getLast?_concat]
  dsimp only
  rw [if_pos (h.grow hs true).1, List.append_assoc]
  exact hdel

theorem insertAvailable_new (h : Fills start stop (X ++ b :: Y)) (hs : stop < 2 ^ 31)
    (hy : HeadUsed Y) :
    insertAvailable (frees X ++ frees Y) b.node = insertNew (frees X ++ frees Y) b.node := by
  have hsp := h.splits_frees hs
  rw [insertAvailable, hsp.lower]
  cases hf : frees Y with
  | nil => rfl
  | cons c cs =>
    have ha := h.not_adjacent_below hs hy (hf ▸ List.mem_cons_self ..)
    dsimp only
    rw [ha, if_neg Bool.false_ne_true]

theorem insertAvailable_below (h : Fills start stop (X ++ b :: x :: Y)) (hs : stop < 2 ^ 31)
    (hx : LastUsed X) (hb : x.isFree = true) :
    insertAvailable (frees X ++ frees (x :: Y)) b.node =
      some (frees X ++ x.node.grow b.node :: frees Y) := by
  have hsp := h.splits_frees hs
  obtain ⟨hadj, hg⟩ := h.grow hs true
  rw [insertAvailable, hsp.lower, hsp.higher, frees_cons_free hb]
  dsimp only
  rw [if_pos hadj, if_neg]
  rw [List.getLastD_eq_getLast?]
  cases hl : (frees X).getLast? with
  | none =>
    intro ha
    have he := (hg.adjacent_iff hs (List.mem_append_right _ (List.mem_cons_self ..)) _).mp ha
    exact absurd (Block.lo_lt_hi ⟨x.node.grow b.node, true⟩) (he ▸ lt_irrefl _)
  | some p =>
    have ha := hg.not_adjacent_above hs hx (List.mem_of_getLast? hl)
    intro hn
    cases ha.symm.trans hn

theorem insertAvailable_both (h : Fills start stop (X ++ y :: b :: x :: Y)) (hs : stop < 2 ^ 31)
    (hy : y.isFree = true) (hx : x.isFree = true) :
    insertAvailable (frees (X ++ [y]) ++ frees (x :: Y)) b.node =
      some (frees X ++ (x.node.grow b.node).grow y.node :: frees Y) := by
  have hb' : Fills start stop ((X ++ [y]) ++ b :: x :: Y) := by
    rw [List.append_assoc]
    exact h
  have hsp := hb'.splits_frees hs
  obtain ⟨hadj, hg⟩ := hb'.grow hs true
  rw [List.append_assoc] at hg
  have hg : Fills start stop (X ++ y :: ⟨x.node.grow b.node, true⟩ :: Y) := hg
  have hl : frees (X ++ [y]) = frees X ++ [y.node] := by
    rw [frees_append, frees_cons_free hy, frees_nil]
  have hdel := delete_grow hg hs rfl
  rw [insertAvailable, hsp.lower, hsp.higher, frees_cons_free hx, hl]
  dsimp only
  rw [if_pos hadj, List.getLastD_concat, if_pos (hg.grow hs true).1, List.append_assoc]
  exact hdel

theorem apart_middle (hX : Apart X) (hY : Apart Y) (hx : LastUsed X) (hy : HeadUsed Y) :
    Apart (X ++ b :: Y) := by
  refine List.isChain_append.mpr ⟨hX, List.isChain_cons.mpr ⟨fun y hm h => ?_, hY⟩, ?_⟩
  · rw [hy y hm] at h
    cases h.2
  · intro x hm _ _ h
    rw [hx x hm] at h
    cases h.1

theorem Apart.around (h : Apart (X ++ b :: Y)) (hb : b.isFree = true) :
    Apart X ∧ Apart Y ∧ LastUsed X ∧ HeadUsed Y := by
  obtain ⟨hX, hbY, hlast⟩ := List.isChain_append.mp h
  obtain ⟨hhead, hY⟩ := List.isChain_cons.mp hbY
  refine ⟨hX, hY, fun x hx => ?_, fun y hy => ?_⟩
  · rw [Bool.eq_false_iff]
    exact fun hf => hlast x hx b rfl ⟨hf, hb⟩
  · rw [Bool.eq_false_iff]
    exact fun hf => hhead y hy ⟨hb, hf⟩

theorem apart_used (hX : Apart X) (hY : Apart Y) (hb : b.isFree = false) :
    Apart (X ++ b :: Y) := by
  refine List.isChain_append.mpr ⟨hX, List.isChain_cons.mpr ⟨fun y _ h => ?_, hY⟩, ?_⟩
  · rw [hb] at h
    cases h.1
  · intro x _ y hy h
    cases hy
    rw [hb] at h
    cases h.2

theorem insertAllocated_useds (h : Fills start stop (X ++ ⟨n, false⟩ :: Y)) (hs : stop < 2 ^ 31) :
    insertAllocated (useds X ++ useds Y) n = useds (X ++ ⟨n, false⟩ :: Y) := by
  rw [useds_append, useds_cons_used rfl]
  exact (h.splits_useds hs).insertAllocated

theorem last_cases (hX : Apart X) : LastUsed X ∨ ∃ X' x, X = X' ++ [x] ∧ x.isFree = true ∧
    Apart X' ∧ LastUsed X' := by
  rcases List.eq_nil_or_concat X with rfl | ⟨X', x, rfl⟩
  · exact .inl fun x hx => by cases hx
  · rw [List.concat_eq_append] at hX ⊢
    cases hf : x.isFree with
    | false =>
      refine .inl fun y hy => ?_
      rw [List.getLast?_concat] at hy
      cases hy
      exact hf
    | true =>
      obtain ⟨hX', -, hlast⟩ := List.isChain_append.mp hX
      refine .inr ⟨X', x, rfl, hf, hX', fun y hy => ?_⟩
      have hn := hlast y hy x rfl
      rw [Bool.eq_false_iff]
      exact fun hyf => hn ⟨hyf, hf⟩

theorem head_cases (hY : Apart Y) : HeadUsed Y ∨ ∃ y Y', Y = y :: Y' ∧ y.isFree = true ∧
    Apart Y' ∧ HeadUsed Y' := by
  cases Y with
  | nil => exact .inl fun x hx => by cases hx
  | cons y Y =>
    cases hf : y.isFree with
    | false =>
      refine .inl fun x hx => ?_
      cases hx
      exact hf
    | true =>
      obtain ⟨hhead, hY'⟩ := List.isChain_cons.mp hY
      refine .inr ⟨y, Y, rfl, hf, hY', fun x hx => ?_⟩
      have hn := hhead x hx
      rw [Bool.eq_false_iff]
      exact fun hxf => hn ⟨hf, hxf⟩

/-- A free block joins its free neighbours. -/
theorem insertAvailable_joins (h : Fills start stop (X ++ ⟨n, true⟩ :: Y)) (hs : stop < 2 ^ 31)
    (hX : Apart X) (hY : Apart Y) : ∃ X' m Y',
      insertAvailable (frees X ++ frees Y) n = some (frees (X' ++ ⟨m, true⟩ :: Y')) ∧
      Fills start stop (X' ++ ⟨m, true⟩ :: Y') ∧ Apart (X' ++ ⟨m, true⟩ :: Y') ∧
      useds (X' ++ ⟨m, true⟩ :: Y') = useds X ++ useds Y := by
  have hfrees (X : List Block) (m : Node) (Y : List Block) :
      frees (X ++ ⟨m, true⟩ :: Y) = frees X ++ m :: frees Y := by
    rw [frees_append, frees_cons_free rfl]
  have huseds (X : List Block) (m : Node) (Y : List Block) :
      useds (X ++ ⟨m, true⟩ :: Y) = useds X ++ useds Y := by
    rw [useds_append, useds_cons_free rfl]
  rcases last_cases hX with hx | ⟨X', x, rfl, hxf, hX', hx'⟩ <;>
    rcases head_cases hY with hy | ⟨y, Y', rfl, hyf, hY', hy'⟩
  · refine ⟨X, n, Y, ?_, h, apart_middle hX hY hx hy, huseds X n Y⟩
    have hnew := insertAvailable_new h hs hy
    rw [hfrees]
    exact hnew.trans (insertNew_plain h hs hx)
  · refine ⟨X, y.node.grow n, Y', ?_, (h.grow hs true).2, apart_middle hX hY' hx hy', ?_⟩
    · have hbelow := insertAvailable_below h hs hx hyf
      rw [hfrees]
      exact hbelow
    · rw [huseds, useds_cons_free hyf]
  · have h' : Fills start stop (X' ++ x :: ⟨n, true⟩ :: Y) := by
      rw [List.append_assoc] at h
      exact h
    refine ⟨X', n.grow x.node, Y, ?_, (h'.grow hs true).2, apart_middle hX' hY hx' hy, ?_⟩
    · have hnew := insertAvailable_new h hs hy
      rw [hfrees]
      exact hnew.trans (insertNew_grow h' hs hxf rfl)
    · rw [huseds, useds_append, useds_cons_free hxf, useds_nil, List.append_nil]
  · have h' : Fills start stop (X' ++ x :: ⟨n, true⟩ :: y :: Y') := by
      rw [List.append_assoc] at h
      exact h
    have hg := (h.grow hs true).2
    rw [List.append_assoc] at hg
    refine ⟨X', (y.node.grow n).grow x.node, Y', ?_, (Fills.grow hg hs true).2,
      apart_middle hX' hY' hx' hy', ?_⟩
    · have hboth := insertAvailable_both h' hs hxf hyf
      rw [hfrees]
      exact hboth
    · rw [huseds, useds_append, useds_cons_free hxf, useds_nil, List.append_nil,
        useds_cons_free hyf]

end

end Smalloc

end Cibyl
