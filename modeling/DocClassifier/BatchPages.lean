import DocClassifier.ConcurrentCalls
import DocClassifier.Lib.Paging
import DocClassifier.ListPages

/-!
# Reading all pages of the batches

`GET /batches/` is paged by offset, and other calls commit between the reads of two pages. Batches
are never deleted and keep the time of their creation, so those that were there when the first page
was read are all seen (`batch_pages_complete`). Batches that have been created at the same time are
excluded: PostgreSQL may list them in another order each time.
-/

namespace DocClassifier
open ReadCommitted Transition Paging

/-- The id of a batch, and what it is listed by. -/
def Batch.place (b : Batch) : String × Nat := (b.id, b.createdAt)

/-- The batches in the order in which they are listed. -/
def Tables.batchesListed (t : Tables) : List Batch :=
  orderByCreatedAtDesc (·.createdAt) t.batches.rows

/-- No two batches have been created at the same time. -/
def Tables.BatchTimesDistinct (t : Tables) : Prop := (t.batches.rows.map (·.createdAt)).Nodup

theorem Batch.place_eq {b b' : Batch} (h : b'.id = b.id) (hf : b'.fixed = b.fixed) :
    b'.place = b.place := by
  have hcreated : b'.createdAt = b.createdAt := congrArg Prod.snd hf
  rw [Batch.place, Batch.place, h, hcreated]

section
variable {t t' : Tables} {n i : Nat}

theorem listBatches_run : ((BatchService.listBatches (i * n) n).run postgres t none []).1 =
    .ok (page n i t.batchesListed) := rfl

theorem mem_batchesListed {b : Batch} : b ∈ t.batchesListed ↔ b ∈ t.batches.rows :=
  List.mem_insertionSort _

theorem length_batchesListed : t.batchesListed.length = t.batches.rows.length :=
  length_orderByCreatedAtDesc

theorem nodup_ids_batchesListed : (t.batchesListed.map (·.id)).Nodup :=
  ((List.perm_insertionSort _ _).map _).nodup_iff.mpr t.batches.nodup

theorem pairwise_orderByCreatedAtDesc {α : Type} (createdAt : α → Nat) (l : List α) :
    (orderByCreatedAtDesc createdAt l).Pairwise fun a b => createdAt b ≤ createdAt a := by
  have htotal : Std.Total fun a b : α => createdAt b ≤ createdAt a := ⟨fun _ _ => le_total _ _⟩
  have htrans : IsTrans α fun a b : α => createdAt b ≤ createdAt a :=
    ⟨fun _ _ _ h h' => le_trans h' h⟩
  exact List.pairwise_insertionSort _ l

/-- The places of the batches come in the order of their times. -/
theorem Tables.BatchTimesDistinct.pairwise (h : t.BatchTimesDistinct) :
    (t.batchesListed.map Batch.place).Pairwise fun x y => y.2 < x.2 := by
  have hnodup : (t.batchesListed.map (·.createdAt)).Nodup :=
    ((List.perm_insertionSort _ _).map _).nodup_iff.mpr h
  refine List.pairwise_map.mpr ?_
  exact ((pairwise_orderByCreatedAtDesc _ _).and (List.pairwise_map.mp hnodup)).imp
    fun h => lt_of_le_of_ne h.1 (Ne.symm h.2)

/-- The times of the batches that were there before are distinct too. -/
theorem Tables.BatchTimesDistinct.of_keepsRows (hk : KeepsRows t t') (h : t'.BatchTimesDistinct) :
    t.BatchTimesDistinct := by
  refine List.Nodup.map_on (fun b hb c hc heq => ?_) (List.Nodup.of_map _ t.batches.nodup)
  obtain ⟨b', hb', hbf⟩ := hk.batches b.id b (Table.find?_eq_some.mpr ⟨hb, rfl⟩)
  obtain ⟨c', hc', hcf⟩ := hk.batches c.id c (Table.find?_eq_some.mpr ⟨hc, rfl⟩)
  have heq' : b'.createdAt = c'.createdAt :=
    (congrArg Prod.snd hbf).trans (heq.trans (congrArg Prod.snd hcf).symm)
  have : b' = c' := List.inj_on_of_nodup_map h (Table.find?_mem hb') (Table.find?_mem hc') heq'
  refine Table.eq_of_key hb hc ?_
  rw [← Table.find?_key hb', ← Table.find?_key hc', this]

/-- What is committed only puts new batches into the list. -/
theorem KeepsRows.sublist (hk : KeepsRows t t') (h : t'.BatchTimesDistinct) :
    (t.batchesListed.map Batch.place).Sublist (t'.batchesListed.map Batch.place) := by
  have hsub : t.batchesListed.map Batch.place ⊆ t'.batchesListed.map Batch.place := by
    intro x hx
    obtain ⟨b, hb, rfl⟩ := List.mem_map.mp hx
    obtain ⟨b', hb', hf⟩ := hk.batches b.id b
      (Table.find?_eq_some.mpr ⟨mem_batchesListed.mp hb, rfl⟩)
    refine List.mem_map.mpr ⟨b', mem_batchesListed.mpr (Table.find?_mem hb'), ?_⟩
    exact Batch.place_eq (Table.find?_key hb') hf
  have hnodup : (t.batchesListed.map Batch.place).Nodup := by
    refine List.Nodup.of_map Prod.fst ?_
    rw [List.map_map]
    exact nodup_ids_batchesListed
  -- Times are distinct, so the order is strict.
  have hanti : Std.Antisymm fun x y : String × Nat => y.2 < x.2 :=
    ⟨fun _ _ h h' => (lt_asymm h h').elim⟩
  exact List.sublist_of_subperm_of_pairwise (List.subperm_of_subset hnodup hsub)
    (h.of_keepsRows hk).pairwise h.pairwise

end

section
variable {ι : Type} [DecidableEq ι] {calls : ι → Call × Gen} {s s' : CallSys ι}

/-- The calls keep the rows from any state of a run on. -/
theorem CallsOutlined.keepsRows {v : Timeline Tables} (H : CallsOutlined calls v s)
    (h : Reaches (Steps (callStep calls)) s s') :
    (∃ v', CallsOutlined calls v' s') ∧ KeepsRows s.server.db s'.server.db := by
  obtain ⟨es, h⟩ := h
  obtain ⟨v', H', hrun⟩ := H.run h
  exact ⟨⟨v', H'⟩, H.db ▸ H'.db ▸ keepsRows_of_lands hrun⟩

/-- A client that reads the pages of `GET /batches/` from the database, one after the other up to
the first that has room left, while calls overlap in any way, sees every batch that was there at the
start. It sees at most as many rows as there are batches at the end, and when no batch has been
created it sees each of them once. -/
theorem batch_pages_complete (calls : ι → Call × Gen) {t : Tables} {s : Nat → CallSys ι}
    {n k : Nat} {p : Nat → List Batch}
    (h0 : Reaches (Steps (callStep calls)) (Sys.start t) (s 0))
    (hs : ∀ i < k, Reaches (Steps (callStep calls)) (s i) (s (i + 1)))
    (hp : ∀ i ≤ k, ((BatchService.listBatches (i * n) n).run postgres (s i).server.db none []).1 =
      .ok (p i))
    (hk : (p k).length < n) (htimes : (s k).server.db.BatchTimesDistinct) :
    (∀ b ∈ (s 0).server.db.batches.rows, ∃ i ≤ k, ∃ b' ∈ p i,
      (s i).server.db.batches.find? b.id = some b' ∧ b'.fixed = b.fixed) ∧
    ((List.range (k + 1)).flatMap p).length ≤ (s k).server.db.batches.rows.length ∧
    ((s k).server.db.batches.rows.length = (s 0).server.db.batches.rows.length →
      (((List.range (k + 1)).flatMap p).map (·.id)).Perm
        ((s 0).server.db.batches.rows.map (·.id))) := by
  have hout : ∀ i ≤ k, ∃ v, CallsOutlined calls v (s i) := fun i hi =>
    (callsOutlined_start.keepsRows (h0.trans (.chain hs (Nat.zero_le i) hi))).1
  have hkeeps : ∀ i j, i ≤ j → j ≤ k → KeepsRows (s i).server.db (s j).server.db := by
    intro i j hij hj
    obtain ⟨v, H⟩ := hout i (hij.trans hj)
    exact (H.keepsRows (.chain hs hij hj)).2
  have hp' : ∀ i ≤ k, page n i (s i).server.db.batchesListed = p i := by
    intro i hi
    have := hp i hi
    rwa [listBatches_run, Except.ok.injEq] at this
  -- The lists of ids that the pages are cut from.
  let L i := (s i).server.db.batchesListed.map (·.id)
  have hL : ∀ i < k, (L i).Sublist (L (i + 1)) := by
    intro i hi
    have := (hkeeps i (i + 1) (by omega) hi).sublist (htimes.of_keepsRows (hkeeps _ k hi le_rfl))
    simpa [L, Batch.place, Function.comp_def] using this.map Prod.fst
  have hpage : ∀ i ≤ k, page n i (L i) = (p i).map (·.id) := by
    intro i hi
    rw [page_map, hp' i hi]
  have hlen : ∀ i, (L i).length = (s i).server.db.batches.rows.length := by
    intro i
    rw [List.length_map, length_batchesListed]
  have hpages : pages n (k + 1) L = ((List.range (k + 1)).flatMap p).map (·.id) := by
    rw [pages, List.map_flatMap]
    exact List.flatMap_congr fun i hi => hpage i (by simpa [Nat.lt_succ_iff] using hi)
  have hk' : (page n k (L k)).length < n := by
    rwa [hpage k le_rfl, List.length_map]
  refine ⟨fun b hb => ?_, ?_, fun heq => ?_⟩
  · have hmem : b.id ∈ pages n (k + 1) L :=
      mem_pages hL hk' (List.mem_map.mpr ⟨b, mem_batchesListed.mpr hb, rfl⟩)
    rw [hpages] at hmem
    obtain ⟨b', hb', hid⟩ := List.mem_map.mp hmem
    obtain ⟨i, hi, hbi⟩ := List.mem_flatMap.mp hb'
    have hi' : i ≤ k := by simpa [Nat.lt_succ_iff] using hi
    obtain ⟨c, hc, hf⟩ := (hkeeps 0 i (Nat.zero_le i) hi').batches b.id b
      (Table.find?_eq_some.mpr ⟨hb, rfl⟩)
    -- The row that is read is the one of that version.
    have hrow : b' ∈ (s i).server.db.batches.rows :=
      mem_batchesListed.mp (mem_of_mem_page (hp' i hi' ▸ hbi))
    obtain rfl := Table.eq_of_key hrow (Table.find?_mem hc) (hid.trans (Table.find?_key hc).symm)
    exact ⟨i, hi', b', hbi, hc, hf⟩
  · have := (length_pages_le (n := n) hL).trans (min_le_right _ _)
    rwa [hpages, List.length_map, hlen] at this
  · have := pages_perm hL hk' nodup_ids_batchesListed (by rw [hlen, hlen, heq])
    rw [hpages] at this
    exact this.trans ((List.perm_insertionSort _ _).map _)

/-- A batch that is created between the reads of the first two pages. -/
def secondBatch : Unit → Call × Gen :=
  fun _ => (.createBatch (some { id := "c", fileCount := 1 }) none, .noId 1)

def secondBatchEvents : List (Event Unit Exn) := [.begin (), .stmt (), .stmt (), .stmt ()]

/-- With pages of one row the old batch is read twice, and the new one not at all. -/
theorem batch_pages_complete_secondBatch : ∃ s : CallSys Unit,
    Run (Steps (callStep secondBatch)) (Sys.start letterSaved) secondBatchEvents s ∧
    s.server.db.batches.rows.map (·.id) = ["b", "c"] ∧
    ∀ b ∈ letterSaved.batches.rows, ∃ i ≤ 2,
      ∃ b' ∈ if i ≤ 1 then letterSaved.batches.rows else [], b'.fixed = b.fixed := by
  have h : (exec (callStep secondBatch) (Sys.start letterSaved) secondBatchEvents).map
      (·.server.db.batches.rows) = some [⟨"b", .done, 1, 0⟩, ⟨"c", .pending, 1, 1⟩] := by
    decide
  obtain ⟨s, hs, hrows⟩ := Option.map_eq_some_iff.mp h
  have hrun := exec_eq_some.mp hs
  refine ⟨s, hrun, by rw [hrows]; rfl, fun b hb => ?_⟩
  -- The state in which the page `i` is read, and the page.
  let v i := if i = 0 then Sys.start letterSaved else s
  let p i := if i ≤ 1 then letterSaved.batches.rows else []
  have hv : ∀ i < 2, Reaches (Steps (callStep secondBatch)) (v i) (v (i + 1)) := by
    intro i _
    cases i with
    | zero => exact ⟨_, hrun⟩
    | succ i => exact .refl
  have hlisted : s.server.db.batchesListed = [⟨"c", .pending, 1, 1⟩, ⟨"b", .done, 1, 0⟩] := by
    rw [Tables.batchesListed, hrows]
    rfl
  have hp : ∀ i ≤ 2, ((BatchService.listBatches (i * 1) 1).run postgres (v i).server.db none []).1 =
      .ok (p i) := by
    intro i hi
    rw [listBatches_run]
    match i, hi with
    | 0, _ => rfl
    | 1, _ | 2, _ => exact congrArg (fun l => Except.ok (page 1 _ l)) hlisted
  have htimes : (v 2).server.db.BatchTimesDistinct := by
    change (s.server.db.batches.rows.map (·.createdAt)).Nodup
    rw [hrows]
    decide
  obtain ⟨i, hi, b', hb', -, hf⟩ :=
    (batch_pages_complete secondBatch .refl hv hp (by decide) htimes).1 b hb
  exact ⟨i, hi, b', hb', hf⟩

end

end DocClassifier
