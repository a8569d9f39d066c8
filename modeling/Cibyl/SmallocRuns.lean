import Cibyl.SmallocPool

namespace Cibyl
set_option autoImplicit true

namespace Smalloc

/-- The memory between `memory_start` and `memory_end`, with room for a header. -/
structure Pool where
  start : Nat
  stop : Nat
  fits : start + overhead ≤ stop
  lt : stop < 2 ^ 31

/-- The lists are those of the blocks that fill the pool. -/
structure Pool.Keeps (p : Pool) (s : State) (bs : List Block) : Prop where
  fills : Fills p.start p.stop bs
  apart : Apart bs
  available : s.available = frees bs
  allocated : s.allocated = useds bs
  room : ∀ n ∈ useds bs, n.usize ≤ n.rsize
  total : s.total = ((useds bs).map Node.usize).sum

/-- What the loop of `bestfit` knows about the nodes it has seen. -/
inductive Best (size : Nat) (seen : List Node) : Option Node × Nat → Prop where
  | nothing (h : ∀ c ∈ seen, c.rsize < size) : Best size seen (none, maxint)
  | found {b : Node} (hb : b ∈ seen) (hs : size ≤ b.rsize)
    (h : ∀ c ∈ seen, size ≤ c.rsize → b.rsize ≤ c.rsize) :
    Best size seen (some b, b.rsize - size)

section

variable {p : Pool} {s : State} {bs X Y : List Block} {b c n : Node} {size : Nat}

theorem Best.step (h : Best size seen x) (hc : c.rsize < maxint)
    (hhead : l.head?.map Node.addr = some c.addr → seen = []) :
    Best size (seen ++ [c]) (fitStep l size x c) := by
  rw [fitStep]
  have hsnoc {P : Node → Prop} (hs : ∀ x ∈ seen, P x) (hc : P c) : ∀ x ∈ seen ++ [c], P x := by
    intro x hx
    rcases List.mem_append.mp hx with hx | hx
    · exact hs x hx
    · exact List.mem_singleton.mp hx ▸ hc
  have hmem : c ∈ seen ++ [c] := List.mem_append_right _ (List.mem_singleton_self c)
  split
  · next hfit =>
    dsimp only
    cases h with
    | nothing h =>
      rw [if_pos (.inl (by omega))]
      refine .found hmem hfit (hsnoc (fun x hx hle => ?_) fun _ => le_rfl)
      exact absurd (h x hx) (Nat.not_lt.mpr hle)
    | @found b hb hs h =>
      split
      · next hover =>
        refine .found hmem hfit (hsnoc (fun x hx hle => ?_) fun _ => le_rfl)
        rcases hover with hover | hover
        · have hbx := h x hx hle
          omega
        · rw [hhead hover] at hx
          cases hx
      · next hover =>
        refine .found (List.mem_append_left _ hb) hs (hsnoc h fun _ => ?_)
        have hnot := fun hlt => hover (.inl hlt)
        omega
  · next hfit =>
    cases h with
    | nothing h => exact .nothing (hsnoc h (by omega))
    | @found b hb hs h =>
      exact .found (List.mem_append_left _ hb) hs (hsnoc h fun hle => absurd hle hfit)

theorem Best.foldl (h : Best size seen x) (hl : all = seen ++ l)
    (hnd : (all.map Node.addr).Nodup) (hlt : ∀ c ∈ l, c.rsize < maxint) :
    Best size all (l.foldl (fitStep all size) x) := by
  induction l generalizing seen x with
  | nil =>
    rw [hl, List.append_nil]
    exact h
  | cons c l ih =>
    refine ih (h.step (hlt c (List.mem_cons_self ..)) fun hhead => ?_)
      (by rw [hl, List.append_assoc]; rfl) fun c hc => hlt c (List.mem_cons_of_mem _ hc)
    cases seen with
    | nil => rfl
    | cons d seen =>
      rw [hl] at hhead hnd
      have hd : d.addr = c.addr := Option.some.inj hhead
      rw [List.cons_append, List.map_cons, List.nodup_cons, hd] at hnd
      refine absurd (List.mem_map_of_mem ?_) hnd.1
      exact List.mem_append_right _ (List.mem_cons_self ..)

/-- The free block that wastes least, if any has room. -/
theorem fit_best (hnd : (l.map Node.addr).Nodup) (hlt : ∀ c ∈ l, c.rsize < maxint) (size : Nat) :
    (fit l size = none ∧ ∀ c ∈ l, c.rsize < size) ∨ ∃ b, fit l size = some b ∧ b ∈ l ∧
      size ≤ b.rsize ∧ ∀ c ∈ l, size ≤ c.rsize → b.rsize ≤ c.rsize := by
  have h : Best size [] (none, maxint) := .nothing fun c hc => by cases hc
  have hbest := h.foldl (List.nil_append l).symm hnd hlt
  rw [fit]
  generalize l.foldl (fitStep l size) (none, maxint) = x at hbest
  cases hbest with
  | nothing h => exact .inl ⟨rfl, h⟩
  | @found b hb hs h => exact .inr ⟨b, rfl, hb, hs, h⟩

theorem Fills.addr_nodup (h : Fills start stop bs) : ((frees bs).map Node.addr).Nodup := by
  have hs : (frees bs).Pairwise (fun x y => x.addr ≠ y.addr) := by
    rw [frees, List.pairwise_map]
    refine (List.Pairwise.filter _ ?_)
    refine List.Pairwise.imp_of_mem (fun {x y} hx hy hxy => ?_) h.pairwise
    have hlt := y.lo_lt_hi
    rw [Block.lo] at hlt hxy
    omega
  rw [List.Nodup, List.pairwise_map]
  exact hs

theorem align_bounds (h : size + 3 < 2 ^ 32) : size ≤ align size ∧ align size ≤ size + 3 := by
  rw [align, u32_eq h]
  omega

/-- A free block is handed out, and what it has over stays free. -/
theorem splitNode_keeps (h : Fills start stop (X ++ ⟨b, true⟩ :: Y)) (hs : stop < 2 ^ 31)
    (hap : Apart (X ++ ⟨b, true⟩ :: Y)) (hfit : size ≤ b.rsize) : ∃ b' bs',
      splitNode b (align size) (frees X ++ frees Y) = some (b', frees bs') ∧
      b'.addr = b.addr ∧ size ≤ b'.rsize ∧ Fills start stop bs' ∧ Apart bs' ∧
      useds bs' = useds X ++ { b' with usize := size } :: useds Y ∧
      insertAllocated (useds X ++ useds Y) { b' with usize := size } = useds bs' := by
  obtain ⟨hX, hY, hx, hy⟩ := hap.around rfl
  have hbd : start ≤ b.addr ∧ b.addr + overhead + b.rsize ≤ stop :=
    h.bounds (List.mem_append_right _ (List.mem_cons_self ..))
  obtain ⟨hFX, -, hFY⟩ := h.around
  have hover : overhead = 12 := rfl
  have hmin : minnode = 256 := rfl
  have hsize : size + 3 < 2 ^ 32 := by omega
  obtain ⟨hal, hau⟩ := align_bounds hsize
  rw [splitNode, u32_eq (by omega)]
  split
  · next hroom =>
    have hleft : sub32 (sub32 b.rsize (align size)) overhead = b.rsize - align size - overhead := by
      rw [sub32, sub32, u32, u32]
      omega
    have hafter : Node.after { b with rsize := align size } = b.addr + overhead + align size :=
      u32_eq (by dsimp only; omega)
    dsimp only
    rw [hleft, hafter]
    let u : Block := ⟨{ b with rsize := align size, usize := size }, false⟩
    let n : Node := ⟨b.addr + overhead + align size, b.rsize - align size - overhead, 0⟩
    have hnhi : Block.hi ⟨n, true⟩ = Block.hi ⟨b, true⟩ := by
      simp only [Block.hi, n]
      omega
    have hfill : Fills start stop (X ++ ⟨n, true⟩ :: u :: Y) := by
      have huY : Tiles Block.lo Block.hi start u.hi (u :: Y) := .cons u.lo_lt_hi hFY
      exact Tiles.middle (hnhi ▸ hFX) (Block.lo_lt_hi _) huY
    have huY : Apart (u :: Y) := apart_used (X := []) List.isChain_nil hY rfl
    obtain ⟨X', m, Y', hins, hfill', hap', hused⟩ := insertAvailable_joins hfill hs hX huY
    rw [frees_cons_used rfl] at hins
    rw [useds_cons_used rfl] at hused
    have hXu : Fills start stop ((X ++ [⟨n, true⟩]) ++ u :: Y) := by
      rw [List.append_assoc]
      exact hfill
    have halloc := insertAllocated_useds hXu hs
    rw [useds_append, useds_cons_free rfl, useds_nil, List.append_nil] at halloc
    refine ⟨{ b with rsize := align size }, _, ?_, rfl, hal, hfill', hap', hused, ?_⟩
    · rw [hins]
      rfl
    · rw [hused]
      refine halloc.trans ?_
      rw [useds_append, useds_cons_used rfl, useds_append, useds_cons_free rfl, useds_nil,
        List.append_nil]
  · let u : Block := ⟨{ b with usize := size }, false⟩
    have hfill : Fills start stop (X ++ u :: Y) := Tiles.middle hFX u.lo_lt_hi hFY
    refine ⟨b, X ++ u :: Y, ?_, rfl, hfit, hfill, apart_used hX hY rfl, ?_,
      insertAllocated_useds hfill hs⟩
    · rw [frees_append, frees_cons_used rfl]
    · rw [useds_append, useds_cons_used rfl]

theorem Fills.sum_le (h : Fills start stop bs) (hr : ∀ n ∈ useds bs, n.usize ≤ n.rsize) :
    start + ((useds bs).map Node.usize).sum ≤ stop := by
  induction bs generalizing stop with
  | nil =>
    have he := Tiles.nil_iff.mp h
    simp only [useds_nil, List.map_nil, List.sum_nil]
    omega
  | cons x bs ih =>
    obtain ⟨rfl, hlt, ht⟩ := Tiles.cons_iff.mp h
    cases hx : x.isFree with
    | true =>
      rw [useds_cons_free hx] at hr ⊢
      exact (ih ht hr).trans hlt.le
    | false =>
      rw [useds_cons_used hx] at hr ⊢
      have hsum := ih ht fun n hn => hr n (List.mem_cons_of_mem _ hn)
      have hxr := hr x.node (List.mem_cons_self ..)
      rw [Block.lo] at hsum
      rw [List.map_cons, List.sum_cons, Block.hi]
      omega

/-- The block `n` is handed out from the free block that wastes least. -/
structure Hands (bs : List Block) (size : Nat) (n : Node) (bs' : List Block) : Prop where
  best : ∃ b ∈ frees bs, b.addr = n.addr ∧ size ≤ b.rsize ∧
    ∀ c ∈ frees bs, size ≤ c.rsize → b.rsize ≤ c.rsize
  usize : n.usize = size
  useds : ∃ A B, useds bs = A ++ B ∧ useds bs' = A ++ n :: B

theorem malloc_keeps (h : p.Keeps s bs) (size : Word) :
    (malloc s size = some (0, s) ∧ ∀ n ∈ frees bs, n.rsize < size.toNat) ∨
      ∃ n s' bs', malloc s size = some (n.addr + overhead, s') ∧ p.Keeps s' bs' ∧
        Hands bs size.toNat n bs' ∧ s'.memory = s.memory := by
  have hlt := p.lt
  have hbound : ∀ c ∈ frees bs, c.rsize < maxint := by
    intro c hc
    obtain ⟨x, hx, -, rfl⟩ := mem_frees.mp hc
    have hbd := h.fills.bounds hx
    have hover : overhead = 12 := rfl
    rw [maxint]
    omega
  rcases fit_best h.fills.addr_nodup hbound size.toNat with
    ⟨hfit, hsmall⟩ | ⟨b, hfit, hb, hroom, hbest⟩
  · refine .inl ⟨?_, hsmall⟩
    rw [malloc, bestfit, h.available, hfit]
    rfl
  · obtain ⟨x, hx, hxf, rfl⟩ := mem_frees.mp hb
    obtain ⟨X, Y, rfl⟩ := List.append_of_mem hx
    have hfill := h.fills.mark true
    have hap : Apart (X ++ ⟨x.node, true⟩ :: Y) := by
      have hxe : x = ⟨x.node, true⟩ := hxf ▸ rfl
      exact hxe ▸ h.apart
    obtain ⟨b', bs', hsplit, haddr, hsize, hfill', hap', hused, halloc⟩ :=
      splitNode_keeps hfill p.lt hap hroom
    have hbd := h.fills.bounds hx
    have hptr : u32 (b'.addr + overhead) = b'.addr + overhead := u32_eq (by rw [haddr]; omega)
    have hfrees : frees (X ++ x :: Y) = frees X ++ x.node :: frees Y := by
      rw [frees_append, frees_cons_free hxf]
    have huseds : useds (X ++ x :: Y) = useds X ++ useds Y := by
      rw [useds_append, useds_cons_free hxf]
    have hdel := ((h.fills.splits_frees p.lt).cons rfl).delete
    rw [← hfrees] at hdel
    have hkeep : ∀ n ∈ useds bs', n.usize ≤ n.rsize := by
      intro n hn
      rw [hused] at hn
      have hold := h.room n
      rw [huseds] at hold
      rcases List.mem_append.mp hn with hn | hn
      · exact hold (List.mem_append_left _ hn)
      · rcases List.mem_cons.mp hn with rfl | hn
        · exact hsize
        · exact hold (List.mem_append_right _ hn)
    have hsum := hfill'.sum_le hkeep
    have htotal : u32 (s.total + size.toNat) = ((useds bs').map Node.usize).sum := by
      rw [h.total, huseds]
      rw [hused] at hsum ⊢
      simp only [List.map_append, List.map_cons, List.sum_append, List.sum_cons] at hsum ⊢
      rw [u32_eq (by omega)]
      omega
    refine .inr ⟨{ b' with usize := size.toNat }, ⟨frees bs', useds bs',
      ((useds bs').map Node.usize).sum, s.memory⟩, bs', ?_,
      ⟨hfill', hap', rfl, rfl, hkeep, rfl⟩,
      ⟨⟨_, hb, haddr.symm, hroom, hbest⟩, rfl, useds X, useds Y, huseds, hused⟩, rfl⟩
    simp only [malloc, bestfit, h.available, hfit, hdel, Option.bind_eq_bind, Option.bind_some,
      hsplit, Option.pure_def]
    rw [h.allocated, huseds, halloc, htotal, hptr]

theorem int32_eq (h : n.addr + overhead < 2 ^ 31) (ptr : Word) :
    n.address = int32 ptr.toNat ↔ n.addr + overhead = ptr.toNat := by
  have hp := ptr.isLt
  have hi : int32 ptr.toNat = ptr.toInt := (BitVec.toInt_eq_toNat_bmod ptr).symm
  rw [Node.address_eq h, hi, BitVec.toInt_eq_toNat_cond]
  split <;> omega

/-- The node of a pointer, among those that are handed out. -/
theorem find_useds (h : Fills start stop (X ++ ⟨n, false⟩ :: Y)) (hs : stop < 2 ^ 31)
    {ptr : Word} (hp : n.addr + overhead = ptr.toNat) :
    find (useds (X ++ ⟨n, false⟩ :: Y)) ptr.toNat = some n := by
  have hbd : start ≤ n.addr ∧ n.addr + overhead + n.rsize ≤ stop :=
    h.bounds (List.mem_append_right _ (List.mem_cons_self ..))
  have hn := (int32_eq (by omega) ptr).mpr hp
  have hsp := (h.splits_useds hs).cons rfl
  have hdrop : (useds X ++ n :: useds Y).dropWhile (fun c => c.address > n.address) =
    n :: useds Y := hsp.lower
  rw [useds_append, useds_cons_used rfl, find, ← hn, hdrop]
  exact if_pos rfl

theorem find_none {l : List Node} (h : ∀ c ∈ l, c.address ≠ int32 ptr) : find l ptr = none := by
  rw [find]
  cases hd : l.dropWhile (fun c => c.address > int32 ptr) with
  | nil => rfl
  | cons c cs =>
    have hc : c ∈ l := (List.dropWhile_suffix _).subset (hd ▸ List.mem_cons_self ..)
    exact if_neg (h c hc)

theorem free_keeps (h : p.Keeps s bs) (ptr : Word) :
    (free s ptr = some s ∧ ∀ n ∈ useds bs, n.addr + overhead ≠ ptr.toNat) ∨
      ∃ n s' bs' A B, free s ptr = some s' ∧ p.Keeps s' bs' ∧ n.addr + overhead = ptr.toNat ∧
        useds bs = A ++ n :: B ∧ useds bs' = A ++ B ∧ s'.memory = s.memory := by
  have hlt := p.lt
  by_cases hlive : ∃ n ∈ useds bs, n.addr + overhead = ptr.toNat
  · obtain ⟨n, hn, hp⟩ := hlive
    obtain ⟨x, hx, hxf, rfl⟩ := mem_useds.mp hn
    obtain ⟨X, Y, rfl⟩ := List.append_of_mem hx
    have hxe : x = ⟨x.node, false⟩ := hxf ▸ rfl
    have hfill : Fills p.start p.stop (X ++ ⟨x.node, false⟩ :: Y) := hxe ▸ h.fills
    have hfind : find s.allocated ptr.toNat = some x.node := by
      rw [h.allocated, hxe]
      exact find_useds hfill p.lt hp
    have huseds : useds (X ++ x :: Y) = useds X ++ x.node :: useds Y := by
      rw [useds_append, useds_cons_used hxf]
    have hfrees : frees (X ++ x :: Y) = frees X ++ frees Y := by
      rw [frees_append, frees_cons_used hxf]
    have hdel : delete s.allocated x.node = some (useds X ++ useds Y) := by
      rw [h.allocated, huseds]
      exact ((hfill.splits_useds p.lt).cons rfl).delete
    obtain ⟨hX, hbY, -⟩ := List.isChain_append.mp h.apart
    have hY : Apart Y := hbY.tail
    obtain ⟨X', m, Y', hins, hfill', hap', hused⟩ :=
      insertAvailable_joins (h.fills.mark true) p.lt hX hY
    have hroom : ∀ n ∈ useds (X' ++ ⟨m, true⟩ :: Y'), n.usize ≤ n.rsize := by
      intro n hn
      refine h.room n ?_
      rw [hused] at hn
      rw [huseds]
      rcases List.mem_append.mp hn with hn | hn
      · exact List.mem_append_left _ hn
      · exact List.mem_append_right _ (List.mem_cons_of_mem _ hn)
    have hsum := h.fills.sum_le h.room
    have htotal : sub32 s.total x.node.usize =
        ((useds (X' ++ ⟨m, true⟩ :: Y')).map Node.usize).sum := by
      rw [h.total, hused]
      rw [huseds] at hsum ⊢
      simp only [List.map_append, List.map_cons, List.sum_append, List.sum_cons] at hsum ⊢
      rw [sub32, u32]
      omega
    have hptr : ptr ≠ 0 := by
      rintro rfl
      have hz : (0 : Word).toNat = 0 := rfl
      rw [overhead] at hp
      omega
    refine .inr ⟨x.node, ⟨frees (X' ++ ⟨m, true⟩ :: Y'), useds (X' ++ ⟨m, true⟩ :: Y'),
      ((useds (X' ++ ⟨m, true⟩ :: Y')).map Node.usize).sum, s.memory⟩, _, useds X, useds Y, ?_,
      ⟨hfill', hap', rfl, rfl, hroom, rfl⟩, hp, huseds, hused, rfl⟩
    rw [free, if_neg hptr, hfind, h.available, hfrees]
    simp only [hdel, hins, Option.bind_eq_bind, Option.bind_some, Option.pure_def]
    rw [htotal, hused]
  · have hnone : ∀ n ∈ useds bs, n.addr + overhead ≠ ptr.toNat := fun n hn hp => hlive ⟨n, hn, hp⟩
    refine .inl ⟨?_, hnone⟩
    rw [free]
    split
    · rfl
    · rw [find_none]
      rw [h.allocated]
      intro c hc he
      obtain ⟨x, hx, -, rfl⟩ := mem_useds.mp hc
      have hbd := h.fills.bounds hx
      exact hnone _ hc ((int32_eq (by omega) ptr).mp he)

end

end Smalloc

end Cibyl
