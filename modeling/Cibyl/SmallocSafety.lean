import Cibyl.SmallocSpec

namespace Cibyl
set_option autoImplicit true

open Lanes (Flat put write readWord bytes)

namespace Libc

theorem memcpyBytes_outside (h : ¬ (d ≤ i ∧ i < d + n)) (s : Nat) (f : Flat) :
    memcpyBytes n d s f i = f i := by
  induction n generalizing d s f with
  | zero => rfl
  | succ n ih =>
    rw [memcpyBytes, ih (by omega), Lanes.put_of_not_mem]
    rw [List.length_singleton]
    omega

theorem memcpyWords_outside (h : ¬ (d ≤ i ∧ i < d + n)) (s : Nat) (f : Flat) :
    memcpyWords n d s f i = f i := by
  fun_induction memcpyWords n d s f with
  | case1 n d s f ih => rw [ih (by omega), write, if_neg (by omega)]
  | case2 => rfl

theorem memcpyBytes_inside (hk : k < n) (h : s + k < d ∨ d + n ≤ s + k) (f : Flat) :
    memcpyBytes n d s f (d + k) = f (s + k) := by
  induction n generalizing d s k f with
  | zero => omega
  | succ n ih =>
    rw [memcpyBytes]
    cases k with
    | zero =>
      rw [memcpyBytes_outside (by omega), Lanes.put_of_mem (by simp), Nat.add_zero, Nat.sub_self]
      rfl
    | succ k =>
      have hi := ih (d := d + 1) (s := s + 1) (k := k) (by omega) (by omega) (put f d [f s])
      rw [Nat.add_assoc, Nat.add_assoc, Nat.add_comm 1 k] at hi
      rw [hi, Lanes.put_of_not_mem]
      rw [List.length_singleton]
      omega

theorem memcpyWords_inside (hn : n % 4 = 0) (hk : k < n) (h : s + k < d ∨ d + n ≤ s + k)
    (f : Flat) : memcpyWords n d s f (d + k) = f (s + k) := by
  fun_induction memcpyWords n d s f generalizing k with
  | case1 n d s f ih =>
    have hw : write 4 f d (readWord f s) = put f d [f s, f (s + 1), f (s + 2), f (s + 3)] :=
      Lanes.write_four f d ..
    rcases Nat.lt_or_ge k 4 with hk4 | hk4
    · rw [memcpyWords_outside (by omega), hw,
        Lanes.put_of_mem (by simp only [List.length_cons, List.length_nil]; omega),
        Nat.add_sub_cancel_left]
      obtain rfl | rfl | rfl | rfl : k = 0 ∨ k = 1 ∨ k = 2 ∨ k = 3 := by omega
      all_goals rfl
    · obtain ⟨j, rfl⟩ := Nat.exists_eq_add_of_le hk4
      have hi := ih (k := j) (by omega) (by omega) (by omega)
      rw [Nat.add_assoc, Nat.add_assoc] at hi
      rw [hi, write, if_neg (by omega)]
  | case2 n d s f hne =>
    have hlt : ¬ 4 ≤ n := fun h => hne (n - 4) (by omega)
    omega

theorem memcpy_outside (h : ¬ (d ≤ i ∧ i < d + n)) (s : Nat) (f : Flat) :
    (memcpy d s n f).2 i = f i := by
  rw [memcpy]
  split
  · exact memcpyWords_outside h s f
  · exact memcpyBytes_outside h s f

/-- A byte whose source is not in the destination is copied, also when others are. -/
theorem memcpy_inside (hk : k < n) (h : s + k < d ∨ d + n ≤ s + k) (f : Flat) :
    (memcpy d s n f).2 (d + k) = f (s + k) := by
  rw [memcpy]
  split
  · next hmod => exact memcpyWords_inside (mod_four_of_or hmod) hk h f
  · exact memcpyBytes_inside hk h f

end Libc

namespace Smalloc

/-- The ranges of a program lie in the pool, with a header between two of them. -/
structure Live.Ok (p : Pool) (live : Live) : Prop where
  within : ∀ x ∈ live, p.start + overhead ≤ x.1 ∧ x.1 + x.2 ≤ p.stop
  apart : live.Pairwise (fun x y => x.1 + x.2 + overhead ≤ y.1 ∨ y.1 + y.2 + overhead ≤ x.1)

section

variable {p : Pool} {live live' : Live}

theorem Live.Ok.perm (h : Live.Ok p live) (hp : live.Perm live') : Live.Ok p live' := by
  refine ⟨fun x hx => h.within x (hp.mem_iff.mpr hx), ?_⟩
  exact (hp.pairwise_iff fun h => h.symm).mp h.apart

theorem Live.Ok.without (h : Live.Ok p live) (ptr : Nat) : Live.Ok p (Live.without live ptr) :=
  ⟨fun x hx => h.within x (List.mem_filter.mp hx).1, h.apart.filter _⟩

theorem Live.Ok.cons (h : Live.Ok p live) (hf : Fresh p live ptr size) :
    Live.Ok p ((ptr, size) :: live) := by
  refine ⟨fun x hx => ?_, List.pairwise_cons.mpr ⟨hf.apart, h.apart⟩⟩
  rcases List.mem_cons.mp hx with rfl | hx
  · exact ⟨hf.start, hf.stop⟩
  · exact h.within x hx

theorem Spec.ok (h : Spec p live c r live') (ho : Live.Ok p live) : Live.Ok p live' := by
  cases h with
  | malloc hf hl => exact (ho.cons hf).perm hl.symm
  | noMalloc => exact ho
  | free ptr => exact ho.without ptr.toNat
  | realloc hf hl => exact ((ho.cons hf).without _).perm hl.symm
  | noRealloc => exact ho
  | store => exact ho

theorem SpecRun.ok (h : SpecRun p live cs rs live') (ho : Live.Ok p live) : Live.Ok p live' := by
  induction h with
  | nil => exact ho
  | cons h _ ih => exact ih (h.ok ho)

/-- Whatever a program calls, the allocator answers as one may, and never reads through a null
pointer; the ranges it has handed out are apart. -/
theorem run_refines (p : Pool) (f : Flat) (cs : List Call) : ∃ rs s,
    runCalls (setMemoryPool p.start p.stop f) cs = some (rs, s) ∧ SpecRun p [] cs rs s.live ∧
      Live.Ok p s.live := by
  obtain ⟨rs, s, bs, hrun, -, hspec⟩ := runCalls_keeps (setMemoryPool_keeps p f) cs
  exact ⟨rs, s, hrun, hspec, hspec.ok ⟨(fun x hx => by cases hx), .nil⟩⟩

/-- A state that some calls lead to. -/
def Reachable (p : Pool) (s : State) : Prop :=
  ∃ f cs rs, runCalls (setMemoryPool p.start p.stop f) cs = some (rs, s)

variable {s : State} {bs : List Block}

theorem Reachable.keeps (h : Reachable p s) : ∃ bs, p.Keeps s bs := by
  obtain ⟨f, cs, rs, hrun⟩ := h
  obtain ⟨rs', s', bs, hrun', hk, -⟩ := runCalls_keeps (setMemoryPool_keeps p f) cs
  cases hrun.symm.trans hrun'
  exact ⟨bs, hk⟩

/-- A pool of a page. -/
def pagePool : Pool := ⟨0x1000, 0x2000, by decide, by decide⟩

def pageState (cs : List Call) : State :=
  ((runCalls (setMemoryPool 0x1000 0x2000 (fun _ => 0)) cs).map Prod.snd).getD
    ⟨[], [], 0, fun _ => 0⟩

/-- Two requests, and the first block given back. -/
def pageCalls : List Call := [.malloc 10, .malloc 100, .free 0x100c]

theorem page_reachable : Reachable pagePool (pageState pageCalls) :=
  ⟨fun _ => 0, pageCalls, _, rfl⟩

/-- The header of a block is not in a range that is handed out. -/
theorem Pool.Keeps.headers (h : p.Keeps s bs) (hn : n ∈ s.available ++ s.allocated)
    (hx : x ∈ s.live) : n.addr + overhead ≤ x.1 ∨ x.1 + x.2 ≤ n.addr := by
  rw [h.live] at hx
  obtain ⟨m, hm, rfl⟩ := List.mem_map.mp hx
  have hroom := h.room m hm
  obtain ⟨y, hy, -, rfl⟩ := mem_useds.mp hm
  obtain ⟨z, hz, rfl⟩ : ∃ z ∈ bs, z.node = n := by
    rw [h.available, h.allocated] at hn
    rcases List.mem_append.mp hn with hn | hn
    · obtain ⟨z, hz, -, rfl⟩ := mem_frees.mp hn
      exact ⟨z, hz, rfl⟩
    · obtain ⟨z, hz, -, rfl⟩ := mem_useds.mp hn
      exact ⟨z, hz, rfl⟩
  dsimp only
  by_cases he : z = y
  · subst he
    omega
  · rcases h.fills.disjoint hz hy he with h | h <;> rw [Block.hi, Block.lo] at h <;> omega

/-- In every state the blocks of both lists fill the pool, no two free ones are neighbours, and no
header is in a range that is handed out. -/
theorem run_tiles (h : Reachable p s) : ∃ bs, Fills p.start p.stop bs ∧ Apart bs ∧
    s.available = frees bs ∧ s.allocated = useds bs ∧ s.total = (s.live.map Prod.snd).sum ∧
    ∀ n ∈ s.available ++ s.allocated, ∀ x ∈ s.live,
      n.addr + overhead ≤ x.1 ∨ x.1 + x.2 ≤ n.addr := by
  obtain ⟨bs, hk⟩ := h.keeps
  refine ⟨bs, hk.fills, hk.apart, hk.available, hk.allocated, ?_, fun n hn x hx => hk.headers hn hx⟩
  rw [hk.total, hk.live, List.map_map]
  rfl

theorem run_tiles_page : ∃ bs, Fills 0x1000 0x2000 bs ∧ Apart bs ∧
    (pageState pageCalls).available = frees bs ∧ (pageState pageCalls).allocated = useds bs := by
  obtain ⟨bs, hf, hap, hav, hal, -⟩ := run_tiles page_reachable
  exact ⟨bs, hf, hap, hav, hal⟩

/-- A free block is a stretch of the pool that no block in use meets. -/
theorem Pool.Keeps.open_iff (h : p.Keeps s bs) (size : Nat) :
    (∀ n ∈ frees bs, n.rsize < size) ↔ ∀ a, p.start ≤ a → a + overhead + size ≤ p.stop →
      ∃ n ∈ s.allocated, n.addr < a + overhead + size ∧ a < n.addr + overhead + n.rsize := by
  rw [h.allocated]
  have hover : overhead = 12 := rfl
  constructor
  · intro hsmall a ha hb
    by_contra hnone
    have hgap := h.fills.gap (p := fun b : Block => b.isFree = true) h.apart ha
      (show a < a + overhead + size by omega) hb fun x hx hf => ?_
    · obtain ⟨x, hx, hf, hlo, hhi⟩ := hgap
      have hlt := hsmall x.node (mem_frees.mpr ⟨x, hx, hf, rfl⟩)
      rw [Block.lo] at hlo
      rw [Block.hi] at hhi
      omega
    · by_contra hmeet
      refine hnone ⟨x.node, mem_useds.mpr ⟨x, hx, Bool.eq_false_iff.mpr hf, rfl⟩, ?_⟩
      rw [Block.hi, Block.lo] at hmeet
      omega
  · intro hall n hn
    by_contra hlarge
    obtain ⟨x, hx, hf, rfl⟩ := mem_frees.mp hn
    have hbd := h.fills.bounds hx
    obtain ⟨m, hm, h₁, h₂⟩ := hall x.node.addr hbd.1 (by omega)
    obtain ⟨y, hy, hyf, rfl⟩ := mem_useds.mp hm
    have hne : x ≠ y := by
      rintro rfl
      cases hf.symm.trans hyf
    rcases h.fills.disjoint hx hy hne with h | h <;> rw [Block.hi, Block.lo] at h <;> omega

/-- `malloc` fails exactly when every stretch of the pool with room for the request and a header
meets a block in use; otherwise it takes the smallest free block with room. -/
theorem malloc_null_iff (h : Reachable p s) (size : Word) :
    (malloc s size = some (0, s) ↔ ∀ a, p.start ≤ a → a + overhead + size.toNat ≤ p.stop →
      ∃ n ∈ s.allocated, n.addr < a + overhead + size.toNat ∧
        a < n.addr + overhead + n.rsize) ∧
    (malloc s size ≠ some (0, s) → ∃ b ∈ s.available, ∃ s',
      malloc s size = some (b.addr + overhead, s') ∧ size.toNat ≤ b.rsize ∧
      ∀ c ∈ s.available, size.toNat ≤ c.rsize → b.rsize ≤ c.rsize) := by
  obtain ⟨bs, hk⟩ := h.keeps
  rw [← hk.open_iff, hk.available]
  rcases malloc_keeps hk size with
    ⟨hm, hsmall⟩ | ⟨n, s', bs', hm, -, ⟨⟨b, hb, hbn, hr, hbest⟩, -⟩, -⟩
  · exact ⟨⟨fun _ => hsmall, fun _ => hm⟩, fun hne => absurd hm hne⟩
  · refine ⟨⟨fun hz => ?_, fun hsmall => absurd hr (Nat.not_le.mpr (hsmall b hb))⟩, fun _ => ?_⟩
    · rw [hm] at hz
      cases hz
    · exact ⟨b, hb, s', hbn ▸ hm, hr, hbest⟩

theorem malloc_null_iff_page : malloc (pageState pageCalls) 3949 = some (0, pageState pageCalls) ∧
    ∀ a, 0x1000 ≤ a → a + overhead + 3949 ≤ 0x2000 →
      ∃ n ∈ (pageState pageCalls).allocated, n.addr < a + overhead + 3949 ∧
        a < n.addr + overhead + n.rsize :=
  ⟨rfl, (malloc_null_iff page_reachable 3949).1.mp rfl⟩

/-- When a program has freed all, there is one free block again, of the size of the first. -/
theorem free_all (h : Reachable p s) (hl : s.live = []) :
    ∃ n, s.available = [n] ∧ n.addr = p.start ∧ n.rsize = p.stop - p.start - overhead ∧
      s.allocated = [] ∧ s.total = 0 := by
  obtain ⟨bs, hk⟩ := h.keeps
  have hused : useds bs = [] := by
    rw [hk.live] at hl
    exact List.map_eq_nil_iff.mp hl
  have hfree : ∀ b ∈ bs, b.isFree = true := by
    intro b hb
    by_contra hf
    have hmem := mem_useds.mpr ⟨b, hb, Bool.eq_false_iff.mpr hf, rfl⟩
    rw [hused] at hmem
    cases hmem
  have hfits := p.fits
  have hfill := hk.fills
  have hap := hk.apart
  have hav := hk.available
  have htotal := hk.total
  rw [hused] at htotal
  cases bs with
  | nil =>
    have he := Tiles.nil_iff.mp hfill
    have hover : overhead = 12 := rfl
    omega
  | cons x bs =>
    cases bs with
    | nil =>
      obtain ⟨hhi, -, ht⟩ := Tiles.cons_iff.mp hfill
      have hlo := Tiles.nil_iff.mp ht
      rw [Block.hi] at hhi
      rw [Block.lo] at hlo
      refine ⟨x.node, ?_, hlo.symm, by omega, hk.allocated.trans hused, htotal⟩
      rw [hav, frees_cons_free (hfree x (List.mem_cons_self ..)), frees_nil]
    | cons y bs =>
      have hxy := (List.isChain_cons_cons.mp hap).1
      exact absurd ⟨hfree x (List.mem_cons_self ..),
        hfree y (List.mem_cons_of_mem _ (List.mem_cons_self ..))⟩ hxy

theorem free_all_page : ∃ n, (pageState (pageCalls ++ [.free 0x1024])).available = [n] ∧
    n.addr = 0x1000 ∧ n.rsize = 0xff4 := by
  have hr : Reachable pagePool (pageState (pageCalls ++ [.free 0x1024])) :=
    ⟨fun _ => 0, pageCalls ++ [.free 0x1024], _, rfl⟩
  obtain ⟨n, hav, ha, hs, -⟩ := free_all hr rfl
  exact ⟨n, hav, ha, hs⟩

/-- The pointer that a call gives back to the allocator. -/
def Call.gives : Call → Option Nat
  | .free ptr => some ptr.toNat
  | .realloc ptr _ => some ptr.toNat
  | _ => none

theorem mem_without {x : Nat × Nat} : x ∈ Live.without live ptr ↔ x ∈ live ∧ x.1 ≠ ptr := by
  rw [Live.without, List.mem_filter, decide_eq_true_iff]

end

end Smalloc

end Cibyl
