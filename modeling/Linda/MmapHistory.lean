/-
Histories of mmap_do_map and mmap_do_unmap on any directories: the mappings
in force beside the entries of mmaplist.
-/
import Linda.CallHistory
import Linda.MmapEffects
import Mathlib.Data.List.Nodup

namespace Linda

open ByteMemory CallHistory LinkedSegment FuelLoop

/-- A mapping in force: where its page table entry is, its page and its
frame.  Directories that share a page table share its mappings. -/
structure Mapping where
  slot : Nat
  page : Nat
  frame : Nat
deriving Repr, DecidableEq

namespace Mapping

/-- What `mmaplist` says of a mapping. -/
def pair (x : Mapping) : Nat × Nat := (x.page, x.frame)

/-- The mappings left when the page table entry at `slot` is written. -/
def remaining (slot : Nat) (live : List Mapping) : List Mapping :=
  live.filter fun x => x.slot ≠ slot

end Mapping

/-- What `mmap_do_unmap` leaves of the list. -/
def unlinkEntries (page : Nat) : List (Nat × Nat) → List (Nat × Nat)
  | [] => []
  | e :: rest =>
      if e.1 = page then [] else e :: rest.eraseP fun e => e.1 = page

/-- The first entry of the page, if there is one, is that of the mapping at
`slot`, and no longer list begins with it. -/
def OwnEntry (live : List Mapping) (slot page : Nat) :
    List (Nat × Nat) → Prop
  | [] => True
  | e :: rest =>
      if e.1 = page then rest = [] ∧ ⟨slot, e.1, e.2⟩ ∈ live
      else ∀ f, rest.find? (fun e => e.1 = page) = some f →
        ⟨slot, f.1, f.2⟩ ∈ live

section Ledger

open Mapping

variable {live : List Mapping} {slot page : Nat} {E : List (Nat × Nat)}

theorem remaining_eq (h : ∀ x ∈ live, x.slot ≠ slot) :
    remaining slot live = live :=
  List.filter_eq_self.mpr fun x hx => decide_eq_true (h x hx)

theorem mem_remaining {x : Mapping} :
    x ∈ remaining slot live ↔ x ∈ live ∧ x.slot ≠ slot := by
  rw [remaining, List.mem_filter, decide_eq_true_eq]

/-- A slot holds one mapping at most. -/
theorem remaining_perm {x : Mapping} (hnodup : (live.map Mapping.slot).Nodup)
    (hx : x ∈ live) : live.Perm (x :: remaining x.slot live) := by
  induction live with
  | nil => cases hx
  | cons y rest ih =>
      obtain ⟨hy, hrest⟩ := List.nodup_cons.mp hnodup
      rcases List.mem_cons.mp hx with rfl | hx
      · have hothers : remaining x.slot rest = rest := remaining_eq fun z hz heq =>
          hy (heq ▸ List.mem_map_of_mem hz)
        rw [remaining, List.filter_cons_of_neg (by simp), ← remaining, hothers]
      · have hne : y.slot ≠ x.slot := fun heq =>
          hy (heq ▸ List.mem_map_of_mem hx)
        rw [remaining, List.filter_cons_of_pos (by simpa using hne), ← remaining]
        exact ((ih hrest hx).cons y).trans (List.Perm.swap x y _)

/-- One entry taken from the list and the mapping of one slot from the ledger:
they were the same. -/
theorem perm_remaining_iff {f : Nat × Nat} {E' : List (Nat × Nat)}
    (hperm : E.Perm (live.map pair)) (hnodup : (live.map Mapping.slot).Nodup)
    (htaken : E.Perm (f :: E')) :
    E'.Perm ((remaining slot live).map pair) ↔ ⟨slot, f.1, f.2⟩ ∈ live := by
  have hboth := htaken.symm.trans hperm
  constructor
  · intro hrest
    obtain ⟨x, hx, hslot⟩ : ∃ x ∈ live, x.slot = slot := by
      by_contra hnone
      have hall : remaining slot live = live := remaining_eq fun x hx heq =>
        hnone ⟨x, hx, heq⟩
      have hlength := hboth.length_eq
      rw [hall] at hrest
      rw [List.length_cons, hrest.length_eq] at hlength
      omega
    subst hslot
    have hsame := hboth.trans ((remaining_perm hnodup hx).map pair)
    rw [List.map_cons] at hsame
    have hcons := hsame.trans (hrest.symm.cons (x.pair))
    have hf : f = x.pair := by
      by_contra hne
      have hcount := hcons.count_eq f
      rw [List.count_cons_self, List.count_cons_of_ne (Ne.symm hne)] at hcount
      omega
    rw [hf]
    exact hx
  · intro hx
    have hsame := hboth.trans ((remaining_perm hnodup hx).map pair)
    exact hsame.cons_inv

theorem perm_cons_eraseP {p : Nat × Nat → Bool} {f : Nat × Nat}
    (hfind : E.find? p = some f) : E.Perm (f :: E.eraseP p) := by
  induction E with
  | nil => cases hfind
  | cons e rest ih =>
      by_cases he : p e = true
      · rw [List.find?_cons_of_pos he, Option.some.injEq] at hfind
        rw [List.eraseP_cons_of_pos he, hfind]
      · rw [List.find?_cons_of_neg he] at hfind
        rw [List.eraseP_cons_of_neg he]
        exact ((ih hfind).cons e).trans (List.Perm.swap f e _)

/-- The list loses what the ledger loses exactly when the page's first entry
is the slot's own. -/
theorem unlinkEntries_perm_iff (hperm : E.Perm (live.map pair))
    (hnodup : (live.map Mapping.slot).Nodup)
    (hpage : ∀ x ∈ live, x.slot = slot → x.page = page) :
    (unlinkEntries page E).Perm ((remaining slot live).map pair) ↔
      OwnEntry live slot page E := by
  -- a mapping at the slot has an entry in the list
  have hentry : (∀ e ∈ E, e.1 ≠ page) → remaining slot live = live := by
    intro hnone
    apply remaining_eq
    intro x hx heq
    have hmem := hperm.mem_iff.mpr (List.mem_map_of_mem hx)
    exact hnone _ hmem (hpage x hx heq)
  cases E with
  | nil =>
      have hall := hentry (by simp)
      rw [hall]
      exact iff_of_true hperm trivial
  | cons e rest =>
      rw [unlinkEntries, OwnEntry]
      by_cases he : e.1 = page
      · rw [if_pos he, if_pos he]
        constructor
        · intro hnil
          have hremaining := List.map_eq_nil_iff.mp (List.nil_perm.mp hnil)
          have hmem := hperm.mem_iff.mp (List.mem_cons_self)
          obtain ⟨x, hx, hxe⟩ := List.mem_map.mp hmem
          have hslot : ∀ y ∈ live, y.slot = slot := by
            intro y hy
            by_contra hne
            have hrest := mem_remaining.mpr ⟨hy, hne⟩
            rw [hremaining] at hrest
            cases hrest
          have hsame := hperm.trans ((remaining_perm hnodup hx).map pair)
          rw [hslot x hx, hremaining, List.map_cons, hxe] at hsame
          refine ⟨List.perm_nil.mp hsame.cons_inv, ?_⟩
          rw [← hxe, ← hslot x hx]
          exact hx
        · rintro ⟨rfl, hx⟩
          exact (perm_remaining_iff hperm hnodup (.refl _)).mpr hx
      · rw [if_neg he, if_neg he]
        cases hfind : rest.find? (fun e => e.1 = page) with
        | none =>
            rw [List.find?_eq_none] at hfind
            have hall := hentry fun f hf => by
              rcases List.mem_cons.mp hf with rfl | hf
              · exact he
              · exact fun heq => hfind f hf (decide_eq_true heq)
            rw [hall, List.eraseP_of_forall_not hfind]
            exact iff_of_true hperm (by simp)
        | some f =>
            have htaken := (perm_cons_eraseP hfind).cons e
            refine (perm_remaining_iff hperm hnodup
              (htaken.trans (List.Perm.swap f e _))).trans ?_
            simp

end Ledger

/-- The calls, on any directory. -/
inductive MmapCall where
  | map (mmap va pa flags : Nat)
  | unmap (mmap va : Nat)

/-- A kernel with the mappings in force. -/
structure MmapRun where
  kernel : Kernel
  live : List Mapping

namespace MmapCall

def mmap : MmapCall → Nat
  | .map mmap _ _ _ => mmap
  | .unmap mmap _ => mmap

def va : MmapCall → Nat
  | .map _ va _ _ => va
  | .unmap _ va => va

def flags : MmapCall → Nat
  | .map _ _ _ flags => flags
  | .unmap _ _ => 0

def exec (fuel : Nat) (k : Kernel) : MmapCall → Except Halt Kernel
  | .map mmap va pa flags => mmapDoMap fuel k mmap va pa flags
  | .unmap mmap va => mmapDoUnmap fuel k mmap va

/-- What the kernel passes: a directory, flag bits, and an address outside the
direct map, through which it reaches directories, tables and nodes. -/
structure Proper (roots : List Nat) (call : MmapCall) : Prop where
  mmap : call.mmap ∈ roots
  flags : call.flags < 4096
  outside : call.va < kernBase ∨ kernBase + memNormal ≤ call.va

/-- The mappings in force after the call, where `k` is the kernel it left. -/
def ledger (k : Kernel) (live : List Mapping) : MmapCall → List Mapping
  | .map mmap va pa _ =>
      let slot := slotOf k.mem mmap va
      ⟨slot, va &&& pgMask, pa &&& pgMask⟩ :: Mapping.remaining slot live
  | .unmap mmap va =>
      if entry k.mem mmap (pdx va) = 0 then live
      else Mapping.remaining (slotOf k.mem mmap va) live

/-- The request for a list node is not answered with `NULL`. -/
def Served (k : Kernel) : MmapCall → Prop
  | .map mmap va pa flags => ∀ fuel k₁ k₂ k₃,
      mmapDoUnmap fuel k mmap va = .ok k₁ →
        mapEntry k₁ mmap va pa flags = .ok k₂ →
          kmalloc fuel k₂ mmapBlockSize ≠ .ok (0, k₃)
  | .unmap _ _ => True

/-- The node it is answered with has `NULL` in `next`, which `mmap_do_map` does
not set. -/
def BlankNode (k : Kernel) : MmapCall → Prop
  | .map mmap va pa flags => ∀ fuel k₁ k₂ node k₃,
      mmapDoUnmap fuel k mmap va = .ok k₁ →
        mapEntry k₁ mmap va pa flags = .ok k₂ →
          kmalloc fuel k₂ mmapBlockSize = .ok (node, k₃) →
            nodeNext k₃.mem node = 0
  | .unmap _ _ => True

end MmapCall

def mmapStep (fuel : Nat) (call : MmapCall) (r : MmapRun) :
    Except Halt MmapRun := do
  let k ← call.exec fuel r.kernel
  .ok ⟨k, call.ledger k r.live⟩

/-- The entries of `mmaplist`, from its head on. -/
def MapEntries (k : Kernel) (E : List (Nat × Nat)) : Prop :=
  ∃ nodes, Segment 0 (nodeNext k.mem) k.mmaplist nodes 0 ∧
    nodes.map (nodeEntry k.mem) = E

/-- The entries of `mmaplist` are the mappings in force, each once. -/
def ListAgrees (r : MmapRun) : Prop :=
  ∃ E, MapEntries r.kernel E ∧ E.Perm (r.live.map Mapping.pair)

/-- The call finds no entry for its page but that of the mapping it ends. -/
def FindsOwn (r : MmapRun) (call : MmapCall) : Prop :=
  entry r.kernel.mem call.mmap (pdx call.va) ≠ 0 → ∀ E,
    MapEntries r.kernel E →
      OwnEntry r.live (slotOf r.kernel.mem call.mmap call.va)
        (call.va &&& pgMask) E

section Calls

variable {k k' : Kernel} {s : Paging} {fuel d va pa flags : Nat}

theorem mapEntries_iff {nodes : List Nat} {E : List (Nat × Nat)}
    (hlist : Segment 0 (nodeNext k.mem) k.mmaplist nodes 0) :
    MapEntries k E ↔ nodes.map (nodeEntry k.mem) = E := by
  constructor
  · rintro ⟨nodes', hlinked, hnodes⟩
    rw [hlist.unique hlinked]
    exact hnodes
  · exact fun hE => ⟨nodes, hlist, hE⟩

theorem PagingAt.mapEntries_iff (h : PagingAt k s) {E : List (Nat × Nat)} :
    MapEntries k E ↔ s.nodes.map (nodeEntry k.mem) = E :=
  Linda.mapEntries_iff h.list.linked

theorem unlinkNodes_entries (m : Memory) (page : Nat) (nodes : List Nat) :
    (unlinkNodes m page nodes).map (nodeEntry m) =
      unlinkEntries page (nodes.map (nodeEntry m)) := by
  cases nodes with
  | nil => rfl
  | cons n rest =>
      rw [unlinkNodes, List.map_cons, unlinkEntries]
      split_ifs
      · rfl
      · rw [List.map_cons, List.eraseP_map]
        rfl

section Stability

theorem unlinkBody_stable (va : Nat) (s : Kernel × Nat × Nat × Nat) :
    Stable Halt.spin (fun fuel => unlinkBody va fuel s) := by
  obtain ⟨k, last, map, first⟩ := s
  by_cases hmap : map = 0
  · simp only [unlinkBody, hmap, ↓reduceIte]
    exact stable_const _ _
  · simp only [unlinkBody, hmap, ↓reduceIte]
    refine (stable_const Halt.spin (loadWord k map)).bind fun virtAddr => ?_
    split_ifs
    · refine (stable_const Halt.spin (loadWord k (map + 12))).bind fun next => ?_
      refine (stable_const Halt.spin _).bind fun k => ?_
      exact (kmfree_stable k map).bind fun k => stable_const _ _
    · exact (kmfree_stable _ map).bind fun k => stable_const _ _
    · exact stable_const _ _

theorem mmapDoUnmap_stable (k : Kernel) (mmap va : Nat) :
    Stable Halt.spin (fun fuel => mmapDoUnmap fuel k mmap va) := by
  unfold mmapDoUnmap
  refine (stable_const Halt.spin _).bind fun pde => ?_
  split_ifs
  · exact stable_const _ _
  · refine (stable_const Halt.spin _).bind fun k => ?_
    exact loop_stable (fun s => unlinkBody_stable va s) _

theorem recordMap_stable (k : Kernel) (va pa : Nat) :
    Stable Halt.spin (fun fuel => recordMap fuel k va pa) := by
  unfold recordMap
  split_ifs
  · exact (kmalloc_stable k mmapBlockSize).bind fun p => stable_const _ _
  · refine (loop_stable (fun s => stable_const Halt.spin (findUnusedBody k s))
      _).bind fun p => ?_
    obtain ⟨last, map⟩ := p
    dsimp only
    split_ifs
    · exact stable_const _ _
    · exact (kmalloc_stable k mmapBlockSize).bind fun p => stable_const _ _

theorem mmapDoMap_stable (k : Kernel) (mmap va pa flags : Nat) :
    Stable Halt.spin (fun fuel => mmapDoMap fuel k mmap va pa flags) :=
  (mmapDoUnmap_stable k mmap va).bind fun _ =>
    (stable_const Halt.spin _).bind fun k => recordMap_stable k va pa

end Stability

/-- A mapping that was recorded had an answer from `kmalloc`. -/
theorem recordMap_answered (h : PagingAt k s)
    (hcall : recordMap fuel k va pa = .ok k') :
    ∃ map k₁, Settles (fun fuel => kmalloc fuel k mmapBlockSize)
      (.ok (map, k₁)) := by
  obtain ⟨r, hsettles, -⟩ := kmalloc_settles mmapBlockSize h.ready
  cases r with
  | ok answer => exact ⟨answer.1, answer.2, hsettles⟩
  | error e =>
      obtain ⟨e', herror⟩ : ∃ e', Settles (fun fuel => recordMap fuel k va pa)
          (.error e') := by
        rcases List.eq_nil_or_concat s.nodes with hnodes | ⟨pre, last, hnodes⟩
        · exact ⟨e, recordMap_empty h hnodes hsettles va pa⟩
        · rw [List.concat_eq_append] at hnodes
          exact ⟨e, recordMap_append h hnodes hsettles va pa⟩
      have hboth := (recordMap_stable k va pa).eq_of_settles hcall (by simp) herror
      cases hboth

theorem MmapCall.Served.ne_null {k₁ k₂ k₃ : Kernel} {map : Nat}
    (h : (MmapCall.map d va pa flags).Served k)
    (hun : Settles (fun fuel => mmapDoUnmap fuel k d va) (.ok k₁))
    (hentry : mapEntry k₁ d va pa flags = .ok k₂)
    (halloc : Settles (fun fuel => kmalloc fuel k₂ mmapBlockSize)
      (.ok (map, k₃))) : map ≠ 0 := by
  rintro rfl
  obtain ⟨bound, hun⟩ := hun
  obtain ⟨bound', halloc⟩ := halloc
  exact h (max bound bound') k₁ k₂ k₃ (hun _ (Nat.le_max_left _ _)) hentry
    (halloc _ (Nat.le_max_right _ _))

theorem MmapCall.BlankNode.next_eq {k₁ k₂ k₃ : Kernel} {map : Nat}
    (h : (MmapCall.map d va pa flags).BlankNode k)
    (hun : Settles (fun fuel => mmapDoUnmap fuel k d va) (.ok k₁))
    (hentry : mapEntry k₁ d va pa flags = .ok k₂)
    (halloc : Settles (fun fuel => kmalloc fuel k₂ mmapBlockSize)
      (.ok (map, k₃))) : nodeNext k₃.mem map = 0 := by
  obtain ⟨bound, hun⟩ := hun
  obtain ⟨bound', halloc⟩ := halloc
  exact h (max bound bound') k₁ k₂ map k₃ (hun _ (Nat.le_max_left _ _)) hentry
    (halloc _ (Nat.le_max_right _ _))

/-- The parts of a call of `mmap_do_map` that returned and was served. -/
theorem PagingAt.map_granted (h : PagingAt k s) (hd : d ∈ s.roots)
    (hflags : flags < 4096)
    (hserved : (MmapCall.map d va pa flags).Served k)
    (hcall : mmapDoMap fuel k d va pa flags = .ok k') :
    ∃ k₁ s₁ k₂ tables' map k₃,
      Settles (fun fuel => mmapDoUnmap fuel k d va) (.ok k₁) ∧
      Unmapped k s d va k₁ s₁ ∧ mapEntry k₁ d va pa flags = .ok k₂ ∧
      Placed k₁ s₁ d va pa flags k₂ tables' ∧
      Settles (fun fuel => kmalloc fuel k₂ mmapBlockSize) (.ok (map, k₃)) ∧
      map ≠ 0 := by
  obtain ⟨k₁, s₁, hun, hunmapped⟩ := unmapped_settles h hd va
  obtain ⟨k₁', hk₁, hcall⟩ := ok_of_bind hcall
  obtain ⟨k₂, hentry, hrecord⟩ := ok_of_bind hcall
  obtain rfl := Except.ok.inj ((mmapDoUnmap_stable k d va).eq_of_settles
    hk₁ (by simp) hun)
  obtain ⟨tables', hplaced⟩ := placed_of_mapEntry hunmapped.paging
    (hunmapped.roots ▸ hd) hflags hentry
  -- the node comes from `kmalloc`
  obtain ⟨map, k₃, halloc⟩ := recordMap_answered hplaced.paging hrecord
  exact ⟨k₁', s₁, k₂, tables', map, k₃, hun, hunmapped, hentry, hplaced, halloc,
    hserved.ne_null hun hentry halloc⟩

/-- The block `mmap_do_map` is going to get for its node. -/
def mapNode (fuel : Nat) (k : Kernel) (mmap va pa flags : Nat) :
    Except Halt Nat := do
  let k ← mmapDoUnmap fuel k mmap va
  let k ← mapEntry k mmap va pa flags
  let (node, _) ← kmalloc fuel k mmapBlockSize
  .ok node

/-- The parts of a call of `mmap_do_map` up to its request for a node. -/
theorem mapNode_parts {node : Nat} (h : PagingAt k s) (hd : d ∈ s.roots)
    (hflags : flags < 4096) (hnode : mapNode fuel k d va pa flags = .ok node) :
    ∃ k₁ s₁ k₂ tables' k₃,
      mmapDoUnmap fuel k d va = .ok k₁ ∧ Unmapped k s d va k₁ s₁ ∧
      mapEntry k₁ d va pa flags = .ok k₂ ∧
      Placed k₁ s₁ d va pa flags k₂ tables' ∧
      kmalloc fuel k₂ mmapBlockSize = .ok (node, k₃) := by
  obtain ⟨k₁, hun, hnode⟩ := ok_of_bind hnode
  obtain ⟨k₂, hentry, hnode⟩ := ok_of_bind hnode
  obtain ⟨⟨node', k₃⟩, halloc, hnode⟩ := ok_of_bind hnode
  obtain rfl := Except.ok.inj hnode
  obtain ⟨k₁', s₁, hsettles, hunmapped⟩ := unmapped_settles h hd va
  obtain rfl := Except.ok.inj
    ((mmapDoUnmap_stable k d va).eq_of_settles hun (by simp) hsettles)
  obtain ⟨tables', hplaced⟩ := placed_of_mapEntry hunmapped.paging
    (hunmapped.roots ▸ hd) hflags hentry
  exact ⟨k₁, s₁, k₂, tables', k₃, hun, hunmapped, hentry, hplaced, halloc⟩

/-- Whatever the fuel, the call gets the same node. -/
theorem mapParts_same {k₁ k₂ k₃ k₁' k₂' : Kernel} {fuel' node : Nat}
    {answer : Nat × Kernel} (hun : mmapDoUnmap fuel k d va = .ok k₁)
    (hentry : mapEntry k₁ d va pa flags = .ok k₂)
    (halloc : kmalloc fuel k₂ mmapBlockSize = .ok (node, k₃))
    (hun' : mmapDoUnmap fuel' k d va = .ok k₁')
    (hentry' : mapEntry k₁' d va pa flags = .ok k₂')
    (halloc' : kmalloc fuel' k₂' mmapBlockSize = .ok answer) :
    answer = (node, k₃) := by
  have hstable := mmapDoUnmap_stable k d va
  obtain rfl := Except.ok.inj
    (hstable.eq_of_settles hun' (by simp) (hstable.settles hun (by simp)))
  rw [hentry] at hentry'
  obtain rfl := Except.ok.inj hentry'
  have hstable' := kmalloc_stable k₂ mmapBlockSize
  have hsettles := hstable'.settles halloc (by simp)
  exact Except.ok.inj (hstable'.eq_of_settles halloc' (by simp) hsettles)

theorem served_of_mapNode {node : Nat}
    (hnode : mapNode fuel k d va pa flags = .ok node) (hne : node ≠ 0) :
    (MmapCall.map d va pa flags).Served k := by
  obtain ⟨k₁, hun, hnode⟩ := ok_of_bind hnode
  obtain ⟨k₂, hentry, hnode⟩ := ok_of_bind hnode
  obtain ⟨⟨node', k₃⟩, halloc, hnode⟩ := ok_of_bind hnode
  obtain rfl := Except.ok.inj hnode
  intro fuel' k₁' k₂' k₃' hun' hentry' hnull
  exact hne (Prod.mk.inj
    (mapParts_same hun hentry halloc hun' hentry' hnull)).1.symm

/-- The block a call of `mmap_do_map` gets for its node, what that holds in
`next`, and the kernel after the call. -/
def mapParts (fuel : Nat) (k : Kernel) (mmap va pa flags : Nat) :
    Except Halt (Nat × Nat × Kernel) := do
  let k₁ ← mmapDoUnmap fuel k mmap va
  let k₂ ← mapEntry k₁ mmap va pa flags
  let answer ← kmalloc fuel k₂ mmapBlockSize
  let k' ← recordMap fuel k₂ va pa
  .ok (answer.1, nodeNext answer.2.mem answer.1, k')

theorem mapParts_ok {node next : Nat}
    (h : mapParts fuel k d va pa flags = .ok (node, next, k')) :
    ∃ k₁ k₂ k₃, mmapDoUnmap fuel k d va = .ok k₁ ∧
      mapEntry k₁ d va pa flags = .ok k₂ ∧
      kmalloc fuel k₂ mmapBlockSize = .ok (node, k₃) ∧
      next = nodeNext k₃.mem node ∧ mmapDoMap fuel k d va pa flags = .ok k' := by
  obtain ⟨k₁, hun, h⟩ := ok_of_bind h
  obtain ⟨k₂, hentry, h⟩ := ok_of_bind h
  obtain ⟨⟨node', k₃⟩, halloc, h⟩ := ok_of_bind h
  obtain ⟨k₄, hrecord, h⟩ := ok_of_bind h
  simp only [Except.ok.injEq, Prod.mk.injEq] at h
  obtain ⟨rfl, rfl, rfl⟩ := h
  refine ⟨k₁, k₂, k₃, hun, hentry, halloc, rfl, ?_⟩
  simp only [mmapDoMap, hun, hentry, hrecord, ok_bind]

/-- The list before the call and what the call takes from it. -/
theorem leftNodes_entries (m : Memory) (nodes : List Nat) :
    (leftNodes m d va nodes).map (nodeEntry m) =
      if entry m d (pdx va) = 0 then nodes.map (nodeEntry m)
      else unlinkEntries (va &&& pgMask) (nodes.map (nodeEntry m)) := by
  rw [leftNodes]
  split_ifs
  · rfl
  · exact unlinkNodes_entries m _ nodes

end Calls

/-- The mappings in force are where the walks find them, each in a slot of its
own. -/
structure MmapRun.Valid (r : MmapRun) (s : Paging) : Prop where
  paging : PagingAt r.kernel s
  zeroed : Zeroed r.kernel s.chunks
  slots : (r.live.map Mapping.slot).Nodup
  placed : ∀ x ∈ r.live, x.page &&& pgMask = x.page ∧
    ∃ d ∈ s.roots, Meets r.kernel.mem d x.page x.slot

namespace MmapRun

variable {r r' : MmapRun} {s s' : Paging} {k' : Kernel}
  {fuel d va pa flags : Nat}

/-- The mapping at the slot of an address is the one of its page. -/
theorem Valid.page_eq (h : r.Valid s) (hd : d ∈ s.roots)
    (hne : entry r.kernel.mem d (pdx va) ≠ 0) {x : Mapping} (hx : x ∈ r.live)
    (hslot : x.slot = slotOf r.kernel.mem d va) : x.page = va &&& pgMask := by
  obtain ⟨hpage, d', hd', hmeets⟩ := h.placed x hx
  obtain ⟨hpdx, hptx, -⟩ := h.paging.forest.meets_same h.paging.pool hd' hd
    hmeets ⟨hne, hslot.symm⟩
  rw [← hpage]
  exact (and_pgMask_eq_iff x.page va).mpr ⟨hpdx, hptx⟩

/-- The mappings a call leaves in force. -/
def left (r : MmapRun) (d va : Nat) : List Mapping :=
  if entry r.kernel.mem d (pdx va) = 0 then r.live
  else Mapping.remaining (slotOf r.kernel.mem d va) r.live

theorem left_sublist : (r.left d va).Sublist r.live := by
  rw [left]
  split_ifs
  · exact List.Sublist.refl _
  · exact List.filter_sublist

theorem Valid.agrees_iff (h : r.Valid s) :
    ListAgrees r ↔ (s.nodes.map (nodeEntry r.kernel.mem)).Perm
      (r.live.map Mapping.pair) := by
  simp only [ListAgrees, h.paging.mapEntries_iff, exists_eq_left']

/-- List and ledger lose the same entry when the call finds its own. -/
theorem Valid.left_perm_iff (h : r.Valid s) {call : MmapCall}
    (hd : call.mmap ∈ s.roots) (hagrees : ListAgrees r) :
    ((leftNodes r.kernel.mem call.mmap call.va s.nodes).map
      (nodeEntry r.kernel.mem)).Perm
        ((r.left call.mmap call.va).map Mapping.pair) ↔ FindsOwn r call := by
  have hperm := h.agrees_iff.mp hagrees
  rw [leftNodes_entries, left, FindsOwn]
  split_ifs with hzero
  · exact iff_of_true hperm fun hne => absurd hzero hne
  · rw [unlinkEntries_perm_iff hperm h.slots
      fun x hx => h.page_eq hd hzero hx]
    simp only [h.paging.mapEntries_iff, forall_eq', ne_eq, hzero,
      not_false_eq_true, forall_const]

/-- Every mapping in force is met where it was. -/
theorem Valid.placed_left (h : r.Valid s) {m : Memory}
    (hpde : ∀ d' ∈ s.roots, ∀ i < 1024, entry r.kernel.mem d' i ≠ 0 →
      entry m d' i = entry r.kernel.mem d' i) :
    ∀ x ∈ r.left d va, x.page &&& pgMask = x.page ∧
      ∃ d' ∈ s.roots, Meets m d' x.page x.slot := by
  intro x hx
  obtain ⟨hpage, d', hd', hne, hslot⟩ := h.placed x (left_sublist.subset hx)
  have hsame := hpde d' hd' _ (pdx_lt x.page) hne
  refine ⟨hpage, d', hd', hsame.symm ▸ hne, ?_⟩
  rw [slotOf, hsame, ← slotOf]
  exact hslot

theorem Valid.unmap (h : r.Valid s)
    (hun : Unmapped r.kernel s d va k' s') :
    Valid ⟨k', r.left d va⟩ s' where
  paging := hun.paging
  zeroed := hun.zeroed h.zeroed
  slots := h.slots.sublist (left_sublist.map _)
  placed := by
    rw [hun.roots]
    exact h.placed_left fun d' hd' i hi _ => hun.pde d' hd' i hi

/-- The slot of the new mapping holds none of those left. -/
theorem Valid.slot_free (h : r.Valid s) (hd : d ∈ s.roots)
    (hmap : Mapped r.kernel s d va pa flags k' s') {x : Mapping}
    (hx : x ∈ r.left d va) : x.slot ≠ slotOf k'.mem d va := by
  intro hslot
  have hlive := left_sublist.subset hx
  by_cases hzero : entry r.kernel.mem d (pdx va) = 0
  · -- the slot is in a new table
    obtain ⟨-, d', hd', hne, hat⟩ := h.placed x hlive
    have htable := h.paging.forest.table hd' (pdx_lt x.page) hne
    have hnew := hmap.paging.forest.table (hmap.roots ▸ hd) (pdx_lt va)
      hmap.present
    have haligned := (h.paging.table_page htable).aligned
    have haligned' := (hmap.paging.table_page hnew).aligned
    have hptx := ptx_lt va
    have hptx' := ptx_lt x.page
    rw [← hat, slotOf, slotOf] at hslot
    have hsame : tableOf (entry k'.mem d (pdx va)) =
        tableOf (entry r.kernel.mem d' (pdx x.page)) := by omega
    exact hmap.fresh hzero (hsame ▸ htable)
  · have hsame := hmap.write.pde_of_ne hd (pdx_lt va) hzero
    rw [left, if_neg hzero] at hx
    rw [slotOf, hsame, ← slotOf] at hslot
    exact (mem_remaining.mp hx).2 hslot

/-- The ledger of a call that maps a page. -/
theorem Valid.ledger_map (h : r.Valid s) (hd : d ∈ s.roots)
    (hmap : Mapped r.kernel s d va pa flags k' s') :
    MmapCall.ledger k' r.live (.map d va pa flags) =
      ⟨slotOf k'.mem d va, va &&& pgMask, pa &&& pgMask⟩ :: r.left d va := by
  rw [MmapCall.ledger, List.cons_inj_right]
  calc Mapping.remaining (slotOf k'.mem d va) r.live
      = Mapping.remaining (slotOf k'.mem d va) (r.left d va) := by
        by_cases hzero : entry r.kernel.mem d (pdx va) = 0
        · rw [left, if_pos hzero]
        · have hsame := hmap.write.pde_of_ne hd (pdx_lt va) hzero
          rw [left, if_neg hzero, slotOf, hsame, ← slotOf, Mapping.remaining,
            Mapping.remaining, List.filter_filter]
          simp only [Bool.and_self]
    _ = r.left d va := remaining_eq fun x hx => h.slot_free hd hmap hx

theorem Valid.map (h : r.Valid s) (hd : d ∈ s.roots)
    (hmap : Mapped r.kernel s d va pa flags k' s') :
    Valid ⟨k', MmapCall.ledger k' r.live (.map d va pa flags)⟩ s' := by
  rw [h.ledger_map hd hmap]
  constructor
  · exact hmap.paging
  · exact hmap.zeroed h.zeroed
  · rw [List.map_cons, List.nodup_cons]
    refine ⟨?_, h.slots.sublist (left_sublist.map _)⟩
    intro hmem
    obtain ⟨x, hx, hslot⟩ := List.mem_map.mp hmem
    exact h.slot_free hd hmap hx hslot
  · intro x hx
    rw [hmap.roots]
    rcases List.mem_cons.mp hx with rfl | hx
    · have hindex := (and_pgMask_eq_iff (va &&& pgMask) va).mp
        (and_pgMask_self va)
      refine ⟨and_pgMask_self va, d, hd, ?_, ?_⟩
      · rw [hindex.1]
        exact hmap.present
      · rw [slotOf, slotOf, hindex.1, hindex.2]
    · exact h.placed_left
        (fun d' hd' i hi hne => hmap.write.pde_of_ne hd' hi hne) x hx

/-- A call of `mmap_do_unmap` keeps the list and the ledger together when it
finds its own entry. -/
theorem Valid.step_unmap (h : r.Valid s) (hd : d ∈ s.roots)
    (hcall : mmapDoUnmap fuel r.kernel d va = .ok k') (hagrees : ListAgrees r) :
    ∃ s', Valid ⟨k', MmapCall.ledger k' r.live (.unmap d va)⟩ s' ∧
      s'.roots = s.roots ∧
      (ListAgrees ⟨k', MmapCall.ledger k' r.live (.unmap d va)⟩ ↔
        FindsOwn r (.unmap d va)) := by
  obtain ⟨k₁, s', hsettles, hun⟩ := unmapped_settles h.paging hd va
  obtain rfl := Except.ok.inj ((mmapDoUnmap_stable r.kernel d va).eq_of_settles
    hcall (by simp) hsettles)
  have hpde := hun.pde d hd _ (pdx_lt va)
  have hledger : MmapCall.ledger k' r.live (.unmap d va) = r.left d va := by
    rw [MmapCall.ledger, left, slotOf, hpde, ← slotOf]
  rw [hledger]
  have hvalid := h.unmap hun
  refine ⟨s', hvalid, hun.roots, ?_⟩
  have hentries : s'.nodes.map (nodeEntry k'.mem) =
      s'.nodes.map (nodeEntry r.kernel.mem) := List.map_congr_left hun.entries
  rw [hvalid.agrees_iff, hentries, hun.nodes]
  exact @Valid.left_perm_iff r s h (.unmap d va) hd hagrees

/-- So does one of `mmap_do_map` that gets a node for the list. -/
theorem Valid.step_map (h : r.Valid s) (hd : d ∈ s.roots)
    (hflags : flags < 4096)
    (hserved : (MmapCall.map d va pa flags).Served r.kernel)
    (hcall : mmapDoMap fuel r.kernel d va pa flags = .ok k')
    (hagrees : ListAgrees r) :
    ∃ s', Valid ⟨k', MmapCall.ledger k' r.live (.map d va pa flags)⟩ s' ∧
      s'.roots = s.roots ∧
      (ListAgrees ⟨k', MmapCall.ledger k' r.live (.map d va pa flags)⟩ ↔
        FindsOwn r (.map d va pa flags)) := by
  obtain ⟨k₁, s₁, k₂, tables', map, k₃, hun, hunmapped, hentry, hplaced, halloc,
    hne⟩ := h.paging.map_granted hd hflags hserved hcall
  have hblank := blank_of_zeroed hplaced.paging.toPooled
    (hplaced.zeroed (hunmapped.zeroed h.zeroed)) halloc hne
  obtain ⟨k'', s', hsettles, hmapped, hnodes, hentries, hnew⟩ :=
    mapped_of_grant h.paging hd hflags hun hentry halloc hne hblank
  obtain rfl := Except.ok.inj
    ((mmapDoMap_stable r.kernel d va pa flags).eq_of_settles hcall (by simp)
      hsettles)
  have hvalid := h.map hd hmapped
  refine ⟨s', hvalid, hmapped.roots, ?_⟩
  have hleft : (leftNodes r.kernel.mem d va s.nodes).map (nodeEntry k'.mem) =
      (leftNodes r.kernel.mem d va s.nodes).map (nodeEntry r.kernel.mem) :=
    List.map_congr_left hentries
  rw [hvalid.agrees_iff, h.ledger_map hd hmapped, hnodes, List.map_append,
    hleft, List.map_singleton, hnew, List.map_cons]
  rw [(List.perm_append_singleton _ _).congr_left]
  refine (List.perm_cons _).trans ?_
  exact @Valid.left_perm_iff r s h (.map d va pa flags) hd hagrees

theorem Valid.step (h : r.Valid s) {call : MmapCall}
    (hd : call.mmap ∈ s.roots) (hflags : call.flags < 4096)
    (hserved : call.Served r.kernel) (hstep : mmapStep fuel call r = .ok r')
    (hagrees : ListAgrees r) :
    ∃ s', r'.Valid s' ∧ s'.roots = s.roots ∧ (ListAgrees r' ↔ FindsOwn r call) := by
  obtain ⟨k', hcall, hr'⟩ := ok_of_bind hstep
  cases hr'
  cases call with
  | map d va pa flags => exact h.step_map hd hflags hserved hcall hagrees
  | unmap d va => exact h.step_unmap hd hcall hagrees

end MmapRun

/-- In every history of calls, with nothing mapped before and no request for a
node refused, the list agrees with the mappings in force after every call
exactly when every call finds no entry but its own. -/
theorem listAgrees_iff {k : Kernel} {s : Paging} (h : PagingAt k s)
    (hnodes : s.nodes = []) (hz : Zeroed k s.chunks) {calls : List MmapCall}
    (hcalls : ∀ call ∈ calls, call.Proper s.roots)
    (fuel : Nat)
    (hserved : EachStep (mmapStep fuel)
      (fun r call _ => call.Served r.kernel) calls ⟨k, []⟩) :
    EachStep (mmapStep fuel) (fun _ _ r' => ListAgrees r') calls ⟨k, []⟩ ↔
      EachStep (mmapStep fuel) (fun r call _ => FindsOwn r call) calls
        ⟨k, []⟩ := by
  apply eachStep_congr fun calls r =>
    (∃ s', r.Valid s' ∧ s'.roots = s.roots) ∧ ListAgrees r ∧
      (∀ call ∈ calls, call.Proper s.roots) ∧
      EachStep (mmapStep fuel) (fun r call _ => call.Served r.kernel) calls r
  · rintro r call calls r' ⟨⟨s', hvalid, hroots⟩, hagrees, hcalls, hserved⟩ hstep
    obtain ⟨hd, hflags, -⟩ := hcalls call List.mem_cons_self
    obtain ⟨-, -, -, hiff⟩ := hvalid.step (hroots ▸ hd) hflags
      (hserved r' hstep).1 hstep hagrees
    exact hiff
  · rintro r call calls r' ⟨⟨s', hvalid, hroots⟩, hagrees, hcalls, hserved⟩ hstep
      hown
    obtain ⟨hd, hflags, -⟩ := hcalls call List.mem_cons_self
    obtain ⟨s'', hvalid', hroots', hiff⟩ := hvalid.step (hroots ▸ hd) hflags
      (hserved r' hstep).1 hstep hagrees
    exact ⟨⟨s'', hvalid', hroots'.trans hroots⟩, hiff.mpr hown,
      fun call' hmem => hcalls call' (List.mem_cons_of_mem call hmem),
      (hserved r' hstep).2⟩
  · have hvalid : MmapRun.Valid ⟨k, []⟩ s :=
      ⟨h, hz, List.nodup_nil, fun x hx => nomatch hx⟩
    refine ⟨⟨s, hvalid, rfl⟩, ?_, hcalls, hserved⟩
    rw [hvalid.agrees_iff, hnodes]
    exact List.Perm.refl []

/-- A directory with one table in the kernel half, and nothing mapped. -/
def tableKernel : Kernel where
  mem := setEntry (fun _ => 0) 0xC0001000 992 (pteWord 0x2000 0)
  kmemList := 0
  kvmlist := fun i =>
    ⟨kernBase + i * pgSize, if 3 ≤ i ∧ i < 9 then vmMapped else 0⟩
  memMap := .zeroed fun _ => 0
  mmaplist := 0
  cr3 := 0x1000
  curproc := none

theorem tableKernel_pages {page : Nat}
    (hpage : page ∈ availablePages tableKernel.kvmlist) :
    ∃ i, 3 ≤ i ∧ i < 9 ∧ page = 0xC0000000 + i * 4096 := by
  obtain ⟨i, -, havail, rfl⟩ := mem_availablePages.mp hpage
  refine ⟨i, ?_⟩
  by_contra hout
  have hstatus : (tableKernel.kvmlist i).status = 0 :=
    if_neg fun hin => hout ⟨hin.1, hin.2, rfl⟩
  rw [VmBlock.available, hstatus] at havail
  exact absurd havail (by decide)

theorem tableKernel_entry {i : Nat} (hi : i < 1024) :
    entry tableKernel.mem 0xC0001000 i =
      if i = 992 then pteWord 0x2000 0 else 0 := by
  split_ifs with hat
  · rw [hat]
    exact entry_setEntry_same.trans (by decide)
  · refine (entry_setEntry_of_ne (by decide) (by decide) (by decide) hi
      (Or.inr hat)).trans ?_
    exact load32_eq_zero fun _ _ _ => rfl

theorem tableKernel_pool : PagePool [0xC0001000, 0xC0002000] []
    (availablePages tableKernel.kvmlist) := by
  constructor
  · rw [List.nil_append]
    refine List.nodup_append.mpr
      ⟨by decide, availablePages_nodup fun _ _ => rfl, ?_⟩
    rintro page hfixed _ hpage rfl
    obtain ⟨i, hlo, hhi, rfl⟩ := tableKernel_pages hpage
    simp only [List.mem_cons, List.not_mem_nil, or_false] at hfixed
    omega
  · rw [List.nil_append]
    intro page hpage
    rcases List.mem_append.mp hpage with hfixed | hpage
    · simp only [List.mem_cons, List.not_mem_nil, or_false] at hfixed
      rcases hfixed with rfl | rfl <;> exact ⟨by decide, by decide, by decide⟩
    · obtain ⟨i, hlo, hhi, rfl⟩ := tableKernel_pages hpage
      refine ⟨by omega, ?_, ?_⟩ <;> simp only [kernBase, pgSize, memNormal] <;>
        omega

theorem tableKernel_paging :
    PagingAt tableKernel ⟨[0xC0001000], [0xC0002000], [], [], []⟩ where
  heap := ⟨⟨rfl, by simp⟩, ⟨by simp, fun _ => rfl, by simp⟩⟩
  pool := tableKernel_pool
  forest := by
    constructor
    · intro d hd i hi
      obtain rfl := List.mem_singleton.mp hd
      rw [tableKernel_entry hi]
      split_ifs
      · exact Or.inr (by decide)
      · exact Or.inl rfl
    · intro d hd d' hd' i hi i' hi' hne hne' _
      obtain rfl := List.mem_singleton.mp hd
      obtain rfl := List.mem_singleton.mp hd'
      rw [tableKernel_entry hi] at hne
      rw [tableKernel_entry hi'] at hne'
      split_ifs at hne hne' with hat hat'
      · exact ⟨hat.trans hat'.symm, Or.inl rfl⟩
      all_goals exact absurd rfl ‹_›
  list := ⟨rfl, by simp, by simp, List.nodup_nil⟩

theorem tableKernel_zeroed : Zeroed tableKernel [] := by
  refine ⟨by simp [FreeZeroed], fun page hpage x hx => ?_⟩
  obtain ⟨i, hlo, hhi, rfl⟩ := tableKernel_pages hpage
  rw [pageExtent_iff] at hx
  have hkept : store32 (fun _ => 0) (0xC0001000 + 4 * 992) (pteWord 0x2000 0) x =
      0 := store32_of_outside _ _ (by omega)
  exact hkept

/-- The first request for a node gets the first bytes behind a header. -/
theorem tableKernel_served :
    (MmapCall.map 0xC0001000 0xF8000000 0x38000000 0).Served tableKernel := by
  have hnode : (mapNode 10 tableKernel 0xC0001000 0xF8000000 0x38000000
      0).toOption = some 0xC0003010 := by
    simp only [mapNode, mapEntry, memset_eq_fill]
    decide +kernel
  exact served_of_mapNode (ok_of_toOption hnode) (by decide)

/-- Two mappings: the node the second one gets, the list, and what is in
force. -/
theorem tableKernel_maps : (do
    let r ← mmapStep 10 (.map 0xC0001000 0xF8000000 0x38000000 0)
      ⟨tableKernel, []⟩
    let node ← mapNode 10 r.kernel 0xC0001000 0xF8001000 0x38001000 0
    let r' ← mmapStep 10 (.map 0xC0001000 0xF8001000 0x38001000 0) r
    Except.ok ([node, r.kernel.mmaplist, nodeNext r.kernel.mem 0xC0003010,
        r'.kernel.mmaplist, nodeNext r'.kernel.mem 0xC0003010,
        nodeNext r'.kernel.mem 0xC0003030,
        slotOf r'.kernel.mem 0xC0001000 0xF8001000],
      nodeEntry r.kernel.mem 0xC0003010 ::
        [0xC0003010, 0xC0003030].map (nodeEntry r'.kernel.mem), r'.live)).toOption =
    some ([0xC0003030, 0xC0003010, 0, 0xC0003010, 0xC0003030, 0, 0xC0002004],
      [(0xF8000000, 0x38000000), (0xF8000000, 0x38000000),
        (0xF8001000, 0x38001000)],
      [⟨0xC0002004, 0xF8001000, 0x38001000⟩,
        ⟨0xC0002000, 0xF8000000, 0x38000000⟩]) := by
  decide +kernel

/-- Two mappings, and the end of the second. -/
theorem listAgrees_second :
    EachStep (mmapStep 10) (fun _ _ r' => ListAgrees r')
      [.map 0xC0001000 0xF8000000 0x38000000 0,
        .map 0xC0001000 0xF8001000 0x38001000 0,
        .unmap 0xC0001000 0xF8001000] ⟨tableKernel, []⟩ := by
  have hproper : ∀ call ∈ [MmapCall.map 0xC0001000 0xF8000000 0x38000000 0,
      .map 0xC0001000 0xF8001000 0x38001000 0, .unmap 0xC0001000 0xF8001000],
        call.Proper [0xC0001000] := by
    intro call hcall
    simp only [List.mem_cons, List.not_mem_nil, or_false] at hcall
    rcases hcall with rfl | rfl | rfl
    all_goals exact ⟨List.mem_cons_self, by decide, Or.inr (by decide)⟩
  obtain ⟨r₁, hstep₁, heval⟩ := ok_of_bind (ok_of_toOption tableKernel_maps)
  obtain ⟨node, hnode, heval⟩ := ok_of_bind heval
  obtain ⟨r₂, hstep₂, heval⟩ := ok_of_bind heval
  simp only [Except.ok.injEq, Prod.mk.injEq, List.cons.injEq, and_true] at heval
  obtain ⟨⟨rfl, hhead₁, hnext₁, hhead₂, hnext₂, hend₂, hslot⟩,
    ⟨hentry₁, hentries₂⟩, hlive⟩ := heval
  apply (listAgrees_iff tableKernel_paging rfl tableKernel_zeroed hproper 10
    ?_).mpr
  · refine fun r hr => ⟨fun _ E hE => ?_, fun r' hr' => ⟨fun _ E hE => ?_,
      fun r'' _ => ⟨fun _ E hE => ?_, trivial⟩⟩⟩
    · obtain rfl := tableKernel_paging.mapEntries_iff.mp hE
      trivial
    · obtain rfl := Except.ok.inj (hstep₁.symm.trans hr)
      have hlist : Segment 0 (nodeNext r₁.kernel.mem) r₁.kernel.mmaplist
          [0xC0003010] 0 := ⟨hhead₁, by decide, hnext₁⟩
      obtain rfl := (mapEntries_iff hlist).mp hE
      rw [List.map_singleton, hentry₁, OwnEntry, if_neg (by decide)]
      rintro f ⟨⟩
    · obtain rfl := Except.ok.inj (hstep₁.symm.trans hr)
      obtain rfl := Except.ok.inj (hstep₂.symm.trans hr')
      have hlist : Segment 0 (nodeNext r₂.kernel.mem) r₂.kernel.mmaplist
          [0xC0003010, 0xC0003030] 0 :=
        ⟨hhead₂, by decide, hnext₂, by decide, hend₂⟩
      obtain rfl := (mapEntries_iff hlist).mp hE
      rw [hentries₂, OwnEntry, if_neg (by decide)]
      rintro f ⟨⟩
      change (⟨slotOf r₂.kernel.mem 0xC0001000 0xF8001000, 0xF8001000, 0x38001000⟩ :
        Mapping) ∈ r₂.live
      rw [hslot, hlive]
      exact List.mem_cons_self
  · refine fun r hr => ⟨tableKernel_served, fun r' hr' => ⟨?_, fun _ _ =>
      ⟨trivial, trivial⟩⟩⟩
    obtain rfl := Except.ok.inj (hstep₁.symm.trans hr)
    exact served_of_mapNode hnode (by decide)

/-- Two mappings, and the end of the first: the list is empty afterwards. -/
theorem tableKernel_run : (run (mmapStep 10)
    ([.map 0xC0001000 0xF8000000 0x38000000 0,
      .map 0xC0001000 0xF8001000 0x38001000 0] ++
        [.unmap 0xC0001000 0xF8000000])
    ⟨tableKernel, []⟩).toOption.map
      (fun r => (r.kernel.mmaplist, r.live.map Mapping.page)) =
        some (0, [0xF8001000]) := by decide +kernel

/-- But the second mapping is in force. -/
theorem first_unmapped_drops :
    ¬ EachStep (mmapStep 10) (fun _ _ r' => ListAgrees r')
      ([.map 0xC0001000 0xF8000000 0x38000000 0,
        .map 0xC0001000 0xF8001000 0x38001000 0] ++
          [.unmap 0xC0001000 0xF8000000])
      ⟨tableKernel, []⟩ := by
  intro heach
  have hend := tableKernel_run
  rw [Option.map_eq_some_iff] at hend
  obtain ⟨r, hrun, hr⟩ := hend
  replace hrun := ok_of_toOption hrun
  rw [run_snoc] at hrun
  obtain ⟨r₂, hrun, hstep⟩ := ok_of_bind hrun
  rw [Prod.mk.injEq] at hr
  obtain ⟨E, ⟨nodes, hlinked, rfl⟩, hperm⟩ := heach.last hrun hstep
  rw [hr.1] at hlinked
  obtain rfl := hlinked.eq_nil_iff.mpr rfl
  have hlive := List.map_eq_nil_iff.mp (List.nil_perm.mp hperm)
  rw [hlive] at hr
  cases hr.2

end Linda
