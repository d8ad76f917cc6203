import DiskANNEval.Lib.Best
import DiskANNEval.PipeANN.LiveSearch

/-!
# BeamLive — `do_beam_search` refines the search that is meant

The candidates up to the last live one that counts are a list of `LiveState`: a beam, and a
neighbour, do to it what they do there, as long as `Keeps` holds (`liveStep`).  Every round chooses
a node or goes on by one, so the search ends (`rank_lt`).
-/

namespace DiskANNEval.PipeANN

open Lib BeamSearch List Option Nat

variable {C D : Type}

namespace BeamSearch

/-! ### Choosing a beam -/

theorem pickBeam_zero (l : List (Neighbor D)) : pickBeam 0 l = ([], l) := by
  unfold pickBeam
  rfl

theorem pickBeam_nil (n : ℕ) : pickBeam n ([] : List (Neighbor D)) = ([], []) := by
  cases n with
  | zero => rfl
  | succ n => rfl

theorem pickBeam_cons_flag (n : ℕ) {e : Neighbor D} (l : List (Neighbor D)) (he : e.flag = true) :
    pickBeam (n + 1) (e :: l) =
      (e.id :: (pickBeam n l).1, { e with flag := false } :: (pickBeam n l).2) := by
  rw [pickBeam, if_pos he]

variable {n : ℕ}

theorem pickBeam_cons_not {e : Neighbor D} (l : List (Neighbor D)) (he : e.flag = false) :
    pickBeam n (e :: l) = ((pickBeam n l).1, e :: (pickBeam n l).2) := by
  cases n with
  | zero => rw [pickBeam_zero, pickBeam_zero]
  | succ n => rw [pickBeam, if_neg (by simp [he])]

variable {l : List (Neighbor D)}

theorem pickBeam_append (l' : List (Neighbor D)) (h : ∀ e ∈ l, e.flag = false) :
    pickBeam n (l ++ l') = ((pickBeam n l').1, l ++ (pickBeam n l').2) := by
  induction l with
  | nil => rfl
  | cons e l ih =>
    rw [cons_append, pickBeam_cons_not _ (h e mem_cons_self),
      ih fun e he => h e (mem_cons_of_mem _ he), cons_append]

theorem map_pickBeam {β : Type} (f : Neighbor D → β)
    (hf : ∀ e : Neighbor D, f { e with flag := false } = f e) (n : ℕ) (l : List (Neighbor D)) :
    (pickBeam n l).2.map f = l.map f := by
  induction l generalizing n with
  | nil => rw [pickBeam_nil]
  | cons e l ih =>
    rcases Bool.eq_false_or_eq_true e.flag with he | he
    · cases n with
      | zero => rw [pickBeam_zero]
      | succ n =>
        rw [pickBeam_cons_flag n l he, map_cons, map_cons, ih, hf]
    · rw [pickBeam_cons_not l he, map_cons, map_cons, ih]

theorem pickBeam_upto {p : Neighbor D → Bool}
    (hp : ∀ e : Neighbor D, p { e with flag := false } = p e) (n m : ℕ) (l : List (Neighbor D)) :
    (pickBeam n (upto p m l)).2 = upto p m (pickBeam n l).2 := by
  induction l generalizing n m with
  | nil =>
    cases m with
    | zero => rw [upto, pickBeam_nil, upto]
    | succ m => rw [upto, pickBeam_nil, upto]
  | cons e l ih =>
    cases m with
    | zero => rw [upto, pickBeam_nil, upto]
    | succ m =>
      rcases Bool.eq_false_or_eq_true e.flag with he | he
      · cases n with
        | zero => rw [pickBeam_zero, pickBeam_zero]
        | succ n => rw [upto, pickBeam_cons_flag n _ he, pickBeam_cons_flag n l he, upto, ih, hp]
      · rw [upto, pickBeam_cons_not _ he, pickBeam_cons_not l he, upto, ih]

theorem countP_pickBeam (n : ℕ) (l : List (Neighbor D)) :
    (pickBeam n l).2.countP Neighbor.flag + (pickBeam n l).1.length = l.countP Neighbor.flag := by
  induction l generalizing n with
  | nil => rw [pickBeam_nil, length_nil, add_zero]
  | cons e l ih =>
    rcases Bool.eq_false_or_eq_true e.flag with he | he
    · cases n with
      | zero => rw [pickBeam_zero, length_nil, add_zero]
      | succ n =>
        have hn := ih n
        rw [pickBeam_cons_flag n l he, countP_cons_of_neg (by simp), length_cons,
          countP_cons_of_pos he]
        omega
    · rw [pickBeam_cons_not l he, countP_cons_of_neg (by simp [he]),
        countP_cons_of_neg (by simp [he]), ih]

theorem pickBeam_eq_nil (hn : 0 < n) (h : (pickBeam n l).1 = []) : ∀ e ∈ l, e.flag = false := by
  induction l with
  | nil => exact fun e he => absurd he not_mem_nil
  | cons e l ih =>
    obtain ⟨n, rfl⟩ := exists_eq_add_one.2 hn
    rcases Bool.eq_false_or_eq_true e.flag with he | he
    · rw [pickBeam_cons_flag n l he] at h
      cases h
    · rw [pickBeam_cons_not l he] at h
      rintro x hx
      rcases mem_cons.1 hx with rfl | hx
      · exact he
      · exact ih h x hx

theorem pickBeam_of_eq_nil (h : (pickBeam n l).1 = []) : (pickBeam n l).2 = l := by
  induction l with
  | nil => rw [pickBeam_nil]
  | cons e l ih =>
    rcases Bool.eq_false_or_eq_true e.flag with he | he
    · cases n with
      | zero => rw [pickBeam_zero]
      | succ n =>
        rw [pickBeam_cons_flag n l he] at h
        cases h
    · rw [pickBeam_cons_not l he] at h ⊢
      rw [ih h]

theorem pickBeam_head (hn : 0 < n) (l : List (Neighbor D)) :
    ∀ e ∈ (pickBeam n l).2.head?, e.flag = false := by
  cases l with
  | nil => rw [pickBeam_nil]; simp
  | cons e l =>
    obtain ⟨n, rfl⟩ := exists_eq_add_one.2 hn
    rcases Bool.eq_false_or_eq_true e.flag with he | he
    · rw [pickBeam_cons_flag n l he]
      simp
    · rw [pickBeam_cons_not l he]
      simp [he]

/-! ### One neighbour -/

/-- The list with a new element at `p`. -/
def Cands.placed (c : Cands D) (p : ℕ) (nn : Neighbor D) : List (Neighbor D) :=
  c.pool.take p ++ nn :: c.pool.drop p

variable [LinearOrder D]

/-- The array has room for one more, the candidates are sorted by distance and their ids have been
visited. -/
structure Cands.Ok (c : Cands D) : Prop where
  pos : 0 < c.curListSize
  lt : c.curListSize < c.retset.length
  sorted : c.pool.Pairwise fun e e' => e.distance ≤ e'.distance
  visited : ∀ e ∈ c.pool, e.id ∈ c.visited
  nk_le : c.nk ≤ c.curListSize

/-- `p` keeps the order. -/
structure Cands.Place (c : Cands D) (d : D) (p : ℕ) : Prop where
  le : p ≤ c.curListSize
  before : ∀ e ∈ c.pool.take p, e.distance ≤ d
  behind : ∀ e ∈ c.pool.drop p, d ≤ e.distance

/-- `nn` is put at `p`, and the list grows or the one at its end falls out. -/
structure Grown (lSearch : ℕ) (c c' : Cands D) (nn : Neighbor D) (p : ℕ) : Prop where
  visited : c'.visited = nn.id :: c.visited
  nk : c'.nk = min c.nk p
  lt : c'.curListSize < c'.retset.length
  size : c'.curListSize = if c.curListSize < lSearch then c.curListSize + 1 else c.curListSize
  pool : c'.pool = (c.placed p nn).take c'.curListSize

variable {c : Cands D}

theorem Cands.Ok.length_pool (h : c.Ok) : c.pool.length = c.curListSize := by
  rw [Cands.pool, List.length_take, min_eq_left h.lt.le]

theorem Cands.Ok.placed_sorted (h : c.Ok) {nn : Neighbor D} {p : ℕ} (hp : c.Place nn.distance p) :
    (c.placed p nn).Pairwise fun e e' => e.distance ≤ e'.distance :=
  pairwise_place (r := fun (e e' : Neighbor D) => e.distance ≤ e'.distance)
    (fun _ _ _ => le_trans) h.sorted hp.before hp.behind

theorem Cands.Ok.length_placed (h : c.Ok) (nn : Neighbor D) {p : ℕ} (hp : c.Place nn.distance p) :
    (c.placed p nn).length = c.curListSize + 1 := by
  rw [Cands.placed, length_place (h.length_pool.symm ▸ hp.le), h.length_pool]

theorem Cands.Ok.place_end (h : c.Ok) {d : D} [Zero D]
    (hd : (c.retset.getD (c.curListSize - 1) default).distance ≤ d) :
    c.Place d c.curListSize := by
  refine ⟨le_refl _, ?_, ?_⟩
  · intro e he
    rw [take_of_length_le h.length_pool.le] at he
    obtain ⟨i, hi, rfl⟩ := (mem_take_iff_getD h.lt.le).1 he
    exact (getD_le_getD h.lt.le h.sorted (by omega) (by have := h.pos; omega)).trans hd
  · intro e he
    rw [drop_of_length_le h.length_pool.le] at he
    exact absurd he not_mem_nil

variable [Zero D]

/-- A new neighbour is put at its place, and comes to the end only when it is behind all. -/
theorem Search.exists_grown (q : Search C D) (h : c.Ok) (lSearch : ℕ) {nbr : ℕ} (hnew : nbr ∉ c.visited) :
    ∃ p, c.Place (q.computeDist nbr) p ∧
      Grown lSearch c (q.pushNbr lSearch c nbr) (.new nbr (q.computeDist nbr) true) p ∧
      (lSearch ≤ c.curListSize → (p = c.curListSize ↔
        (c.retset.getD (c.curListSize - 1) default).distance < q.computeDist nbr ∨
          (c.retset.getD (c.curListSize - 1) default).distance = q.computeDist nbr ∧
            c.curListSize = lSearch)) := by
  rw [pushNbr, if_neg hnew]
  by_cases hfull : (c.retset.getD (c.curListSize - 1) default).distance ≤ q.computeDist nbr ∧
      c.curListSize = lSearch
  · -- it is not put into the list
    rw [if_pos hfull]
    have hp := h.place_end hfull.1
    refine ⟨c.curListSize, hp, ⟨rfl, ?_, h.lt, ?_, ?_⟩, ?_⟩
    · exact (min_eq_left h.nk_le).symm
    · rw [if_neg (by omega)]
    · have hlen := h.length_pool
      rw [Cands.placed, take_of_length_le hlen.le, take_append_of_le_length hlen.ge,
        take_of_length_le hlen.le]
      rfl
    · exact fun _ => ⟨fun _ => hfull.1.lt_or_eq.imp_right fun h => ⟨h, hfull.2⟩, fun _ => rfl⟩
  · rw [if_neg hfull]
    have hid : nbr ∉ c.pool.map Neighbor.id := by
      intro hmem
      obtain ⟨e, he, rfl⟩ := mem_map.1 hmem
      exact hnew (h.visited e he)
    obtain ⟨p, hp, heq, hbefore, hbehind, hend⟩ :=
      @insertIntoPool_place _ _ _ c.retset c.curListSize (.new nbr (q.computeDist nbr) true) h.pos
        h.lt.le hid h.sorted
    rw [heq]
    dsimp only
    have hlen := @putAt_length _ _ _ _ (.new nbr (q.computeDist nbr) true) hp h.lt
    have htake := @take_putAt _ _ _ _ (.new nbr (q.computeDist nbr) true) hp h.lt.le
    refine ⟨p, ⟨hp, hbefore, hbehind⟩, ?_, ?_⟩
    · by_cases hgrow : c.curListSize < lSearch
      · rw [if_pos hgrow]
        refine ⟨rfl, rfl, ?_, ?_, ?_⟩
        · have hlt := h.lt
          have hpos := h.pos
          rw [length_append, length_replicate]
          dsimp only
          split_ifs
          all_goals omega
        · rw [if_pos hgrow]
        · rw [Cands.pool, take_append_of_le_length (by rw [hlen]; exact h.lt), htake]
          have hall := h.length_placed (.new nbr (q.computeDist nbr) true)
            ⟨hp, hbefore, hbehind⟩
          exact (take_of_length_le hall.le).symm
      · rw [if_neg hgrow]
        refine ⟨rfl, rfl, ?_, ?_, ?_⟩
        · rw [hlen]
          exact h.lt
        · rw [if_neg hgrow]
        · have hmin : min c.curListSize (c.curListSize + 1) = c.curListSize :=
            min_eq_left (le_succ _)
          rw [Cands.placed, Cands.pool, Cands.pool, ← htake, take_take, hmin]
    · intro hle
      rw [hend]
      refine ⟨Or.inl, fun h => h.resolve_right fun h => hfull ⟨h.1.le, h.2⟩⟩

variable {c' : Cands D} {nn : Neighbor D} {lSearch p : ℕ}

omit [Zero D] in
theorem Cands.Ok.grown (h : c.Ok) (hp : c.Place nn.distance p) (hg : Grown lSearch c c' nn p) :
    c'.Ok := by
  have hsize := hg.size
  have hle : c.curListSize ≤ c'.curListSize := by
    split_ifs at hsize
    all_goals omega
  refine ⟨h.pos.trans_le hle, hg.lt, ?_, ?_, ?_⟩
  · rw [hg.pool]
    exact (h.placed_sorted hp).sublist (take_sublist _ _)
  · intro e he
    rw [hg.pool] at he
    rw [hg.visited]
    rcases (mem_place p).1 (mem_of_mem_take he) with rfl | he
    · exact mem_cons_self
    · exact mem_cons_of_mem _ (h.visited e he)
  · rw [hg.nk]
    exact (min_le_left _ _).trans (h.nk_le.trans hle)

omit [Zero D] in
theorem Grown.flag (h : c.Ok) (hp : c.Place nn.distance p) (hg : Grown lSearch c c' nn p) {m : ℕ}
    (hm : ∀ e ∈ c.pool.take (min c.nk m), e.flag = false) :
    ∀ e ∈ c'.pool.take (min c'.nk m), e.flag = false := by
  intro e he
  refine hm e ?_
  rw [hg.pool, hg.nk, take_take, Cands.placed] at he
  have hlen : (c.pool.take p).length = p := by
    rw [List.length_take, h.length_pool, min_eq_left hp.le]
  rw [take_append_of_le_length (by omega), take_take] at he
  exact (take_sublist_take_left (by omega)).subset he

/-- The ids that have not been visited and the candidates that are to be expanded. -/
def weight (curId : ℕ) (c : Cands D) : ℕ :=
  ((Finset.range (curId + 1)).filter (· ∉ c.visited)).card + c.pool.countP Neighbor.flag

omit [LinearOrder D] [Zero D] in
theorem Grown.weight_le {curId : ℕ} (hg : Grown lSearch c c' nn p) (hid : nn.id ≤ curId)
    (hnew : nn.id ∉ c.visited) : weight curId c' ≤ weight curId c := by
  have hvisited : ((Finset.range (curId + 1)).filter (· ∉ c'.visited)).card <
      ((Finset.range (curId + 1)).filter (· ∉ c.visited)).card := by
    rw [hg.visited]
    refine Finset.card_lt_card (Finset.ssubset_iff_of_subset ?_ |>.2 ⟨nn.id, ?_, ?_⟩)
    · intro i hi
      simp only [Finset.mem_filter, mem_cons, not_or] at hi ⊢
      exact ⟨hi.1, hi.2.2⟩
    · exact Finset.mem_filter.2 ⟨Finset.mem_range.2 (lt_succ_of_le hid), hnew⟩
    · simp
  have hflag : c'.pool.countP Neighbor.flag ≤ c.pool.countP Neighbor.flag + 1 := by
    rw [hg.pool]
    refine ((take_sublist _ _).countP_le).trans ?_
    rw [Cands.placed, countP_append, countP_cons, ← Nat.add_assoc, ← countP_append,
      take_append_drop]
    split_ifs
    all_goals omega
  rw [weight, weight]
  omega

theorem Search.foldl_pushNbr (q : Search C D) (lSearch : ℕ) (h : c.Ok) {nbrs : List ℕ}
    (hid : ∀ nbr ∈ nbrs, nbr ≤ q.curId) {m : ℕ}
    (hm : ∀ e ∈ c.pool.take (min c.nk m), e.flag = false) :
    (nbrs.foldl (q.pushNbr lSearch) c).Ok ∧
      (∀ e ∈ (nbrs.foldl (q.pushNbr lSearch) c).pool.take
        (min (nbrs.foldl (q.pushNbr lSearch) c).nk m), e.flag = false) ∧
      weight q.curId (nbrs.foldl (q.pushNbr lSearch) c) ≤ weight q.curId c := by
  induction nbrs generalizing c with
  | nil => exact ⟨h, hm, le_refl _⟩
  | cons nbr nbrs ih =>
    rw [foldl_cons]
    have hid' : ∀ nbr ∈ nbrs, nbr ≤ q.curId := fun nbr hn => hid nbr (mem_cons_of_mem _ hn)
    by_cases hnew : nbr ∈ c.visited
    · rw [pushNbr, if_pos hnew]
      exact ih h hid' hm
    · obtain ⟨p, hp, hg, -⟩ := q.exists_grown h lSearch hnew
      obtain ⟨hok, hflag, hle⟩ := ih (h.grown hp hg) hid' (hg.flag h hp hm)
      exact ⟨hok, hflag, hle.trans (hg.weight_le (hid nbr mem_cons_self) hnew)⟩

end BeamSearch

namespace DynamicSearch

variable {a : DynamicSearch C D} [LinearOrder D] [Zero D] {c c' : Cands D} {lSearch nbr : ℕ}

/-! ### The candidates up to the last live one -/

variable {p : ℕ}

omit [Zero D] in
theorem mem_places {pool : List (Neighbor D)} {d : D} :
    p ∈ places pool d ↔ p ≤ pool.length ∧ (∀ e ∈ pool.take p, e.distance ≤ d) ∧
      ∀ e ∈ pool.drop p, d ≤ e.distance := by
  simp [places]

omit [Zero D] in
theorem exists_place {d : D} (hp : c.Place d p) (nn : Neighbor D) :
    ∃ i ∈ places (upto a.live a.searchL c.pool) d,
      upto a.live a.searchL (c.placed p nn) =
        upto a.live a.searchL ((upto a.live a.searchL c.pool).take i ++
          nn :: (upto a.live a.searchL c.pool).drop i) := by
  have heq := upto_place a.live a.searchL p c.pool nn
  obtain ⟨rest, hrest⟩ := exists_upto_append a.live a.searchL c.pool
  generalize upto a.live a.searchL c.pool = u at heq hrest
  rcases le_total p u.length with hle | hle
  · refine ⟨p, mem_places.2 ⟨hle, ?_, ?_⟩, heq⟩
    · intro e he
      refine hp.before e ?_
      rw [hrest, take_append_of_le_length hle]
      exact he
    · intro e he
      refine hp.behind e ?_
      rw [hrest, drop_append_of_le_length hle]
      exact mem_append_left _ he
  · refine ⟨u.length, mem_places.2 ⟨le_refl _, ?_, ?_⟩, ?_⟩
    · intro e he
      refine hp.before e ?_
      rw [hrest, take_append, take_of_length_le hle]
      rw [take_length] at he
      exact mem_append_left _ he
    · simp
    · rw [take_of_length_le hle, drop_of_length_le hle] at heq
      rw [take_length, drop_length]
      exact heq

theorem placed_eq_concat (h : c.Ok) (nn : Neighbor D) (hp : c.Place nn.distance p) :
    c.placed p nn = (c.placed p nn).take c.curListSize ++
      [if p = c.curListSize then nn else c.retset.getD (c.curListSize - 1) default] := by
  have hlen := h.length_pool
  split_ifs with hend
  · rw [Cands.placed, hend, ← hlen, take_length, drop_length,
      take_append_of_le_length (le_refl _), take_length]
  · have hlast : c.pool.getLast? = some (c.retset.getD (c.curListSize - 1) default) := by
      have hpos := h.pos
      have hlt := h.lt
      rw [getLast?_eq_getElem?, hlen, Cands.pool, getElem?_take_of_lt (by omega),
        getD_eq_getElem?_getD, getElem?_eq_getElem (by omega)]
      rfl
    have hle := hp.le
    have hconcat := place_eq_concat (x := nn) (by omega : p < c.pool.length) hlast
    rw [hlen] at hconcat
    exact hconcat

theorem upto_grown (h : c.Ok) (hp : c.Place (a.computeDist nbr) p)
    (hg : Grown lSearch c c' (.new nbr (a.computeDist nbr) true) p)
    (hend : lSearch ≤ c.curListSize → (p = c.curListSize ↔ (c.retset.getD (c.curListSize - 1) default).distance < a.computeDist nbr ∨ (c.retset.getD (c.curListSize - 1) default).distance = a.computeDist nbr ∧ c.curListSize = lSearch))
    (hroom : a.Room lSearch c nbr) (hnew : nbr ∉ c.visited) : upto a.live a.searchL c'.pool =
      upto a.live a.searchL (c.placed p (.new nbr (a.computeDist nbr) true)) := by
  have hsize := hg.size
  rw [hg.pool]
  by_cases hgrow : c.curListSize < lSearch
  · have hlen := h.length_placed (.new nbr (a.computeDist nbr) true) hp
    rw [if_pos hgrow] at hsize
    rw [hsize, take_of_length_le hlen.le]
  · rw [if_neg hgrow] at hsize
    refine (upto_eq_of_front (List.take_prefix _ _) ?_).symm
    rw [hsize]
    have hconcat := placed_eq_concat h (.new nbr (a.computeDist nbr) true) hp
    have hout : (if p = c.curListSize then .new nbr (a.computeDist nbr) true
        else c.retset.getD (c.curListSize - 1) default : Neighbor D).id = a.out lSearch c nbr := by
      rw [out]
      by_cases hp : p = c.curListSize
      · rw [if_pos hp, if_pos ((hend (not_lt.1 hgrow)).1 hp)]
        rfl
      · rw [if_neg hp, if_neg fun h => hp ((hend (not_lt.1 hgrow)).2 h)]
    have hroom := (hroom.resolve_left hnew).resolve_left hgrow
    have hperm : (((c.placed p (.new nbr (a.computeDist nbr) true)).take c.curListSize).map
        Neighbor.id).Perm ((nbr :: c.pool.map Neighbor.id).erase (a.out lSearch c nbr)) := by
      have hall : ((c.placed p (.new nbr (a.computeDist nbr) true)).map Neighbor.id).Perm
          (nbr :: c.pool.map Neighbor.id) := by
        have hcons : (c.placed p (.new nbr (a.computeDist nbr) true)).Perm
            (.new nbr (a.computeDist nbr) true :: c.pool) := by
          refine perm_middle.trans ?_
          rw [take_append_drop]
        exact hcons.map Neighbor.id
      rw [hconcat, map_append, map_singleton, hout] at hall
      have herase := (perm_append_singleton _ _).symm.trans hall
      have := herase.erase (a.out lSearch c nbr)
      rwa [erase_cons_head] at this
    have hcount := hperm.countP_eq (!a.isExcluded ·)
    rw [countP_map] at hcount
    calc a.searchL
        ≤ ((nbr :: c.pool.map Neighbor.id).erase (a.out lSearch c nbr)).countP
          (!a.isExcluded ·) := hroom
      _ = _ := hcount.symm

theorem foldl_mem_livePushAll (h : c.Ok) {nbrs : List ℕ} (hroom : a.RoomAll lSearch c nbrs) :
    (upto a.live a.searchL (nbrs.foldl (a.search.pushNbr lSearch) c).pool,
      (nbrs.foldl (a.search.pushNbr lSearch) c).visited) ∈
        a.livePushAll (upto a.live a.searchL c.pool) c.visited nbrs := by
  induction nbrs generalizing c with
  | nil => exact mem_singleton_self _
  | cons nbr nbrs ih =>
    obtain ⟨hroom, hall⟩ := hroom
    rw [foldl_cons, livePushAll]
    by_cases hnew : nbr ∈ c.visited
    · have heq : a.search.pushNbr lSearch c nbr = c := by rw [Search.pushNbr, if_pos hnew]
      rw [heq] at hall ⊢
      rw [if_pos hnew]
      exact ih h hall
    · rw [if_neg hnew]
      obtain ⟨p, hp, hg, hend⟩ := a.search.exists_grown h lSearch hnew
      obtain ⟨i, hi, hplace⟩ := exists_place hp (.new nbr (a.computeDist nbr) true)
      refine mem_flatMap.2 ⟨i, hi, ?_⟩
      have hih := ih (h.grown hp hg) hall
      rw [upto_grown h hp hg hend hroom hnew, hplace, hg.visited] at hih
      exact hih

/-! ### The search refines -/

/-- What has been passed is expanded, and during a round what lies before the best position, or is
the first of it. -/
structure Inv (s : State C D) : Prop where
  ok : s.cands.Ok
  flag : ∀ e ∈ s.cands.pool.take (if s.beam = [] then s.k else min s.cands.nk (s.k + 1)),
    e.flag = false

/-- The candidates up to the last live one that counts. -/
def liveState (a : DynamicSearch C D) (s : State C D) : LiveState D where
  pool := upto a.live a.searchL s.cands.pool
  visited := s.cands.visited
  beam := s.beam
  fullRetset := s.fullRetset

/-- What decreases: the nodes to be found and expanded, those of the beam, the candidates to be
passed. -/
def rank (a : DynamicSearch C D) (s : State C D) : ℕ ×ₗ ℕ ×ₗ ℕ :=
  toLex (weight a.curId s.cands, toLex (s.beam.length, s.cands.curListSize - s.k))

variable {s s' : State C D}

omit [Zero D] in
theorem selectBeam_eq (h : Inv s) (hbeam : s.beam = []) (hk : s.k < s.cands.curListSize) :
    (a.search.selectBeam s).beam = (pickBeam a.beamWidth s.cands.pool).1 ∧
      (a.search.selectBeam s).cands.pool = (pickBeam a.beamWidth s.cands.pool).2 := by
  have hflag := h.flag
  rw [if_pos hbeam] at hflag
  have happend := pickBeam_append (n := a.beamWidth) (s.cands.pool.drop s.k) hflag
  rw [take_append_drop] at happend
  have hlen : (s.cands.pool.take s.k ++ (pickBeam a.beamWidth (s.cands.pool.drop s.k)).2).length =
      s.cands.curListSize := by
    have hpick := congrArg List.length
      (map_pickBeam Neighbor.id (fun _ => rfl) a.beamWidth (s.cands.pool.drop s.k))
    rw [length_map, length_map, length_drop, h.ok.length_pool] at hpick
    rw [length_append, List.length_take, h.ok.length_pool]
    omega
  have htake : s.cands.pool.take s.k = s.cands.retset.take s.k := by
    rw [Cands.pool, take_take, min_eq_left hk.le]
  rw [happend]
  refine ⟨rfl, ?_⟩
  change (s.cands.retset.take s.k ++ (pickBeam a.beamWidth (s.cands.pool.drop s.k)).2 ++
    s.cands.retset.drop s.cands.curListSize).take s.cands.curListSize = _
  rw [← htake, take_append_of_le_length hlen.ge, take_of_length_le hlen.le]

omit [Zero D] in
theorem selectBeam_ok (h : Inv s) (hbeam : s.beam = []) (hk : s.k < s.cands.curListSize) :
    (a.search.selectBeam s).cands.Ok := by
  obtain ⟨-, hpool⟩ := selectBeam_eq (a := a) h hbeam hk
  have hids : ∀ {β : Type} (f : Neighbor D → β),
      (∀ e : Neighbor D, f { e with flag := false } = f e) →
      (a.search.selectBeam s).cands.pool.map f = s.cands.pool.map f := by
    intro β f hf
    rw [hpool, map_pickBeam f hf]
  refine ⟨h.ok.pos, ?_, ?_, ?_, le_refl _⟩
  · have hlt := h.ok.lt
    change s.cands.curListSize < (_ ++ _ ++ _ : List (Neighbor D)).length
    have hpick := congrArg List.length
      (map_pickBeam Neighbor.id (fun _ => rfl) a.search.beamWidth (s.cands.pool.drop s.k))
    rw [length_map, length_map, length_drop, h.ok.length_pool] at hpick
    rw [length_append, length_append, List.length_take, length_drop]
    omega
  · have hsorted := h.ok.sorted
    rw [← pairwise_map] at hsorted ⊢
    rw [hids Neighbor.distance fun _ => rfl]
    exact hsorted
  · intro e he
    have hmem := mem_map_of_mem (f := Neighbor.id) he
    rw [hids Neighbor.id fun _ => rfl] at hmem
    obtain ⟨e', he', hid⟩ := mem_map.1 hmem
    rw [← hid]
    exact h.ok.visited e' he'

theorem step_cases (h : Inv s) (hkeeps : a.Keeps s) :
    (s.beam = [] ∧ ¬ s.k < s.cands.curListSize ∧ a.search.step s = none) ∨
    (s.beam = [] ∧ s.k < s.cands.curListSize ∧ (pickBeam a.beamWidth s.cands.pool).1 = [] ∧
      a.search.step s = some (endRound (a.search.selectBeam s))) ∨
    (s.beam = [] ∧ s.k < s.cands.curListSize ∧ (pickBeam a.beamWidth s.cands.pool).1 ≠ [] ∧
      a.search.step s = some (a.search.selectBeam s)) ∨
    ∃ id beam s', s.beam = id :: beam ∧ a.search.step s = some s' ∧
      s'.cands = (a.node id).nbrs.foldl (a.search.pushNbr s.lSearch) s.cands ∧
      s'.k = (if beam = [] then min s'.cands.nk (s.k + 1) else s.k) ∧ s'.beam = beam ∧
      s'.fullRetset = s.fullRetset ++ [.new id (a.compare (a.node id).coords) true] := by
  rw [Keeps] at hkeeps
  rw [Search.step]
  match hbeam : s.beam with
  | [] =>
    dsimp only at hkeeps ⊢
    by_cases hk : s.k < s.cands.curListSize
    · have hsel := (selectBeam_eq (a := a) h hbeam hk).1
      rw [if_pos hk]
      by_cases hnil : (pickBeam a.beamWidth s.cands.pool).1 = []
      · rw [if_pos (hsel.trans hnil)]
        exact Or.inr (Or.inl ⟨rfl, hk, hnil, rfl⟩)
      · rw [if_neg (hsel ▸ hnil)]
        exact Or.inr (Or.inr (Or.inl ⟨rfl, hk, hnil, rfl⟩))
    · rw [if_neg hk]
      exact Or.inl ⟨rfl, hk, rfl⟩
  | id :: beam =>
    rw [hbeam] at hkeeps
    dsimp only at hkeeps ⊢
    have hcrash : (a.node id).nbrs.any (a.curId < ·) = false := by
      simpa using hkeeps.1
    have hexp : a.search.expand s id = some (a.search.tuneSearchL { s with
        coords := { s.coords with scratch := some (a.node id).coords }
        fullRetset := s.fullRetset ++ [.new id (a.compare (a.node id).coords) true]
        cands := (a.node id).nbrs.foldl (a.search.pushNbr s.lSearch) s.cands }) := by
      change (if (a.node id).nbrs.any (a.curId < ·) = true then none else _) = _
      rw [hcrash]
      rfl
    rw [hexp, map_some]
    refine Or.inr (Or.inr (Or.inr ⟨id, beam, _, rfl, rfl, ?_⟩))
    by_cases hlast : beam = []
    · rw [if_pos hlast]
      refine ⟨rfl, ?_, rfl, rfl⟩
      change (if _ ≤ s.k then _ else s.k + 1) = _
      dsimp only [endRound]
      split_ifs with hle
      · exact (Nat.min_eq_left (by omega)).symm
      · exact (Nat.min_eq_right (by omega)).symm
    · rw [if_neg hlast, if_neg hlast]
      exact ⟨rfl, rfl, rfl, rfl⟩

theorem Inv.step (h : Inv s) (hkeeps : a.Keeps s) (hstep : a.search.step s = some s') : Inv s' := by
  rcases step_cases h hkeeps with ⟨hbeam, hk, heq⟩ | ⟨hbeam, hk, hnil, heq⟩ |
    ⟨hbeam, hk, hne, heq⟩ | ⟨id, beam, t, hbeam, heq, hcands, hkt, hbt, -⟩
  · rw [heq] at hstep
    cases hstep
  · obtain rfl := Option.some.inj (heq.symm.trans hstep)
    obtain ⟨hbeam', hpool⟩ := selectBeam_eq h hbeam hk
    have hok := selectBeam_ok (a := a) h hbeam hk
    refine ⟨⟨hok.pos, hok.lt, hok.sorted, hok.visited, hok.nk_le⟩, fun e he => ?_⟩
    have he : e ∈ (a.search.selectBeam s).cands.pool := mem_of_mem_take he
    rw [hpool, pickBeam_of_eq_nil hnil] at he
    exact pickBeam_eq_nil a.beamWidth_pos hnil e he
  · obtain rfl := Option.some.inj (heq.symm.trans hstep)
    obtain ⟨hbeam', hpool⟩ := selectBeam_eq h hbeam hk
    refine ⟨selectBeam_ok h hbeam hk, fun e he => ?_⟩
    have hflag := h.flag
    rw [if_pos hbeam] at hflag
    have happend := pickBeam_append (n := a.beamWidth) (s.cands.pool.drop s.k) hflag
    rw [take_append_drop] at happend
    have hlen : (s.cands.pool.take s.k).length = s.k := by
      rw [List.length_take, h.ok.length_pool]
      omega
    rw [if_neg (hbeam' ▸ hne), hpool, happend] at he
    have he := (take_sublist_take_left (min_le_right _ (s.k + 1))).subset he
    rw [take_append, hlen, Nat.add_sub_cancel_left,
      take_of_length_le (by omega : (s.cands.pool.take s.k).length ≤ s.k + 1)] at he
    rcases mem_append.1 he with he | he
    · exact hflag e he
    · refine pickBeam_head a.beamWidth_pos (s.cands.pool.drop s.k) e ?_
      rw [take_one] at he
      exact mem_toList.1 he
  · obtain rfl := Option.some.inj (heq.symm.trans hstep)
    have hids : ∀ nbr ∈ (a.node id).nbrs, nbr ≤ a.curId := by
      rw [Keeps, hbeam] at hkeeps
      exact hkeeps.1
    have hflag := h.flag
    rw [if_neg (hbeam ▸ cons_ne_nil id beam)] at hflag
    obtain ⟨hok, hflag, -⟩ := a.search.foldl_pushNbr s.lSearch h.ok hids hflag
    rw [← hcands] at hok hflag
    refine ⟨hok, ?_⟩
    rw [hbt, hkt]
    split_ifs with hlast
    · exact hflag
    · exact hflag

theorem liveStep (h : Inv s) (hkeeps : a.Keeps s) (hstep : a.search.step s = some s') :
    a.liveState s' = a.liveState s ∨ a.LiveStep (a.liveState s) () (a.liveState s') := by
  rcases step_cases h hkeeps with ⟨hbeam, hk, heq⟩ | ⟨hbeam, hk, hnil, heq⟩ |
    ⟨hbeam, hk, hne, heq⟩ | ⟨id, beam, t, hbeam, heq, hcands, hkt, hbt, hfull⟩
  · rw [heq] at hstep
    cases hstep
  · obtain rfl := Option.some.inj (heq.symm.trans hstep)
    obtain ⟨hbeam', hpool⟩ := selectBeam_eq h hbeam hk
    rw [pickBeam_of_eq_nil hnil] at hpool
    rw [hnil] at hbeam'
    left
    change LiveState.mk (upto a.live a.searchL (a.search.selectBeam s).cands.pool) s.cands.visited
      (a.search.selectBeam s).beam s.fullRetset = _
    rw [hpool, hbeam', liveState, hbeam]
  · obtain rfl := Option.some.inj (heq.symm.trans hstep)
    obtain ⟨hbeam', hpool⟩ := selectBeam_eq h hbeam hk
    right
    have hchoice : (pickBeam a.beamWidth (upto a.live a.searchL s.cands.pool)).1 =
        (pickBeam a.beamWidth s.cands.pool).1 := by
      rw [Keeps, hbeam] at hkeeps
      rwa [if_pos hk] at hkeeps
    have hrest := pickBeam_upto (p := a.live) (fun _ => rfl) a.beamWidth a.searchL s.cands.pool
    have hnext : a.liveNext (a.liveState s) =
        [{ a.liveState s with
            pool := (pickBeam a.beamWidth (upto a.live a.searchL s.cands.pool)).2
            beam := (pickBeam a.beamWidth (upto a.live a.searchL s.cands.pool)).1 }] := by
      rw [liveNext, show (a.liveState s).beam = [] from hbeam]
      dsimp only
      rw [if_neg]
      · rfl
      · exact hchoice ▸ hne
    rw [LiveStep, hnext, hrest, hchoice, ← hbeam', ← hpool]
    exact mem_singleton_self _
  · obtain rfl := Option.some.inj (heq.symm.trans hstep)
    right
    have hroom : a.RoomAll s.lSearch s.cands (a.node id).nbrs := by
      rw [Keeps, hbeam] at hkeeps
      exact hkeeps.2
    have hmem := foldl_mem_livePushAll h.ok hroom
    rw [← hcands] at hmem
    rw [LiveStep, liveNext, show (a.liveState s).beam = id :: beam from hbeam]
    refine mem_map.2 ⟨_, hmem, ?_⟩
    simp only [liveState, hbt, hfull]

theorem rank_lt (h : Inv s) (hkeeps : a.Keeps s) (hstep : a.search.step s = some s') :
    a.rank s' < a.rank s := by
  rw [rank, rank, Prod.Lex.toLex_lt_toLex, Prod.Lex.toLex_lt_toLex]
  rcases step_cases h hkeeps with ⟨hbeam, hk, heq⟩ | ⟨hbeam, hk, hnil, heq⟩ |
    ⟨hbeam, hk, hne, heq⟩ | ⟨id, beam, t, hbeam, heq, hcands, hkt, hbt, hfull⟩
  · rw [heq] at hstep
    cases hstep
  · obtain rfl := Option.some.inj (heq.symm.trans hstep)
    obtain ⟨hbeam', hpool⟩ := selectBeam_eq (a := a) h hbeam hk
    rw [pickBeam_of_eq_nil hnil] at hpool
    rw [hnil] at hbeam'
    refine Or.inr ⟨?_, Or.inr ⟨?_, ?_⟩⟩
    · have hpool : (endRound (a.search.selectBeam s)).cands.pool = s.cands.pool := hpool
      rw [weight, hpool]
      rfl
    · rw [show (endRound (a.search.selectBeam s)).beam = [] from hbeam', hbeam]
    · change s.cands.curListSize - (if s.cands.curListSize ≤ s.k then _ else s.k + 1) < _
      rw [if_neg (by omega)]
      omega
  · obtain rfl := Option.some.inj (heq.symm.trans hstep)
    obtain ⟨hbeam', hpool⟩ := selectBeam_eq h hbeam hk
    have hcount := countP_pickBeam a.beamWidth s.cands.pool
    have hpos := length_pos_of_ne_nil hne
    have hvisited : (a.search.selectBeam s).cands.visited = s.cands.visited := rfl
    rw [weight, weight, hpool, hvisited]
    omega
  · obtain rfl := Option.some.inj (heq.symm.trans hstep)
    have hids : ∀ nbr ∈ (a.node id).nbrs, nbr ≤ a.curId := by
      rw [Keeps, hbeam] at hkeeps
      exact hkeeps.1
    have hflag := h.flag
    rw [if_neg (hbeam ▸ cons_ne_nil id beam)] at hflag
    obtain ⟨-, -, hle⟩ := a.search.foldl_pushNbr s.lSearch h.ok hids hflag
    rw [← hcands] at hle
    rcases hle.lt_or_eq with hlt | heq
    · exact Or.inl hlt
    · refine Or.inr ⟨heq, Or.inl ?_⟩
      rw [hbt, hbeam]
      exact lt_succ_self _

/-! ### The whole search -/

omit [Zero D] in
theorem le_iff_toLex (x y : Neighbor D) :
    Search.le x y ↔ toLex (x.distance, x.id) ≤ toLex (y.distance, y.id) :=
  (Prod.Lex.toLex_le_toLex (x := (x.distance, x.id)) (y := (y.distance, y.id))).symm

instance : Std.Total (Search.le (D := D)) where
  total x y := by
    rw [le_iff_toLex, le_iff_toLex]
    exact le_total _ _

instance : IsTrans (Neighbor D) (Search.le (D := D)) where
  trans x y z := by
    rw [le_iff_toLex, le_iff_toLex, le_iff_toLex]
    exact le_trans

omit [Zero D] in
theorem length_seeds : 0 < a.search.seeds.length ∧ a.search.seeds.length ≤ a.searchL := by
  have hpos := a.searchL_pos
  rw [Search.seeds, length_insertionSort, length_map]
  change 0 < (if a.memTags = [] then [a.entryPointId] else a.memTags.take a.searchL).length ∧
    (if a.memTags = [] then [a.entryPointId] else a.memTags.take a.searchL).length ≤ a.searchL
  split_ifs with hnil
  · exact ⟨one_pos, hpos⟩
  · have hlen := length_pos_of_ne_nil hnil
    rw [List.length_take]
    omega

theorem inv_init (h : a.search.Init s) : Inv s ∧ a.LiveInit (a.liveState s) := by
  obtain ⟨scratch, buf, rfl⟩ := h
  obtain ⟨hpos, hle⟩ := length_seeds (a := a)
  have hpool : (a.search.newState scratch buf).cands.pool = a.search.seeds :=
    take_left
  refine ⟨⟨⟨hpos, ?_, ?_, ?_, zero_le _⟩, ?_⟩, ?_⟩
  · change a.search.seeds.length < (a.search.seeds ++ replicate
      (a.memTags.length + 10 * a.searchL - a.search.seeds.length) default).length
    rw [length_append, length_replicate]
    omega
  · rw [hpool]
    refine (pairwise_insertionSort Search.le _).imp ?_
    rintro x y (hlt | ⟨heq, -⟩)
    · exact hlt.le
    · exact heq.le
  · intro e he
    rw [hpool] at he
    exact mem_map_of_mem he
  · intro e he
    exact absurd he not_mem_nil
  · rw [LiveInit, liveState, hpool, upto_of_length_le hle]
    rfl

omit [LinearOrder D] [Zero D] in
theorem copyTags_eq (isExcluded : ℕ → Bool) {K pos : ℕ} (hpos : pos < K) (l : List (Neighbor D)) :
    copyTags isExcluded K pos l = (l.filter fun e => !isExcluded e.id).take (K - pos) := by
  induction l generalizing pos with
  | nil => rw [copyTags, filter_nil, take_nil]
  | cons e l ih =>
    rw [copyTags]
    by_cases hex : isExcluded e.id = true
    · rw [if_pos hex, if_neg hpos.ne, ih hpos, filter_cons_of_neg (by simp [hex])]
    · rw [filter_cons_of_pos (by simp [hex]),
        show K - pos = K - (pos + 1) + 1 by omega, take_succ_cons]
      split_ifs with hlast
      · rw [hlast, Nat.sub_self, take_zero]
      · rw [ih (by omega)]

theorem returned_eq (hkeeps : a.Keeps s) (hbeam : s.beam = []) (hk : ¬ s.k < s.cands.curListSize) :
    a.returned s.fullRetset = a.firstLive s.fullRetset := by
  rw [Keeps, hbeam] at hkeeps
  rw [if_neg hk] at hkeeps
  obtain ⟨hK, henough⟩ := hkeeps
  rw [returned, firstLive, copyTags_eq _ hK]
  generalize s.fullRetset.insertionSort Search.le = l at henough
  change ((l.take a.searchL).filter a.live).take a.K = _
  conv_rhs => rw [← take_append_drop a.searchL l, filter_append]
  rcases henough with henough | hnone
  · rw [countP_eq_length_filter] at henough
    rw [take_append_of_le_length henough]
  · rw [filter_eq_nil_iff.2 hnone, append_nil]

/-- When nothing is lost the search ends, and returns what one with a list of `search_L` live nodes
returns. -/
theorem search_eq_live (hkeeps : ∀ s, Reach a.search.Init a.search.Step s → a.Keeps s) :
    (∃ s, Reach a.search.Init a.search.Step s ∧ a.search.step s = none) ∧
      ∀ s, Reach a.search.Init a.search.Step s → a.search.step s = none →
        ∃ t, Reach a.LiveInit a.LiveStep t ∧ a.liveNext t = [] ∧
          a.returned s.fullRetset = a.firstLive t.fullRetset := by
  have hsim : ∀ s, Reach a.search.Init a.search.Step s →
      ∃ t, Reach a.LiveInit a.LiveStep t ∧ Inv s ∧ t = a.liveState s := by
    intro s hs
    refine hs.simulate (R := fun s t => Inv s ∧ t = a.liveState s)
      (fun s h => ⟨a.liveState s, (inv_init h).2, (inv_init h).1, rfl⟩) ?_
    rintro s u s' t hs ⟨h, rfl⟩ hstep
    have h' := h.step (hkeeps s hs) hstep
    rcases liveStep h (hkeeps s hs) hstep with heq | hlive
    · exact Or.inl ⟨h', heq.symm⟩
    · exact Or.inr ⟨(), a.liveState s', hlive, h', rfl⟩
  have hinv : ∀ s, Reach a.search.Init a.search.Step s → Inv s := by
    intro s hs
    obtain ⟨t, -, h, -⟩ := hsim s hs
    exact h
  constructor
  · have hdec : ∀ s, Reach a.search.Init a.search.Step s →
        (∀ u s', ¬ a.search.Step s u s') ∨ ∃ u s', a.search.Step s u s' ∧ a.rank s' < a.rank s := by
      intro s hs
      rcases hstep : a.search.step s with _ | s'
      · refine Or.inl fun u s' hs' => ?_
        rw [Search.Step, hstep] at hs'
        cases hs'
      · exact Or.inr ⟨(), s', hstep, rank_lt (hinv s hs) (hkeeps s hs) hstep⟩
    obtain ⟨s, hs, hhalt⟩ := Reach.exists_halted wellFounded_lt a.rank hdec
      (.start ⟨none, fun _ => none, rfl⟩)
    exact ⟨s, hs, eq_none_iff_forall_ne_some.2 fun s' hs' => hhalt () s' hs'⟩
  · intro s hs hend
    obtain ⟨t, hlive, -, rfl⟩ := hsim s hs
    rcases step_cases (hinv s hs) (hkeeps s hs) with ⟨hbeam, hk, -⟩ | ⟨-, -, -, heq⟩ |
      ⟨-, -, -, heq⟩ | ⟨id, beam, t, -, heq, -⟩
    · refine ⟨a.liveState s, hlive, ?_, returned_eq (hkeeps s hs) hbeam hk⟩
      have hflag := (hinv s hs).flag
      have hlen := (hinv s hs).ok.length_pool.trans_le (not_lt.1 hk)
      rw [if_pos hbeam, take_of_length_le hlen] at hflag
      obtain ⟨rest, hrest⟩ := exists_upto_append a.live a.searchL s.cands.pool
      have hnone := pickBeam_append (n := a.beamWidth) []
        fun e he => hflag e (hrest ▸ mem_append_left rest he)
      rw [append_nil, pickBeam_nil] at hnone
      rw [liveNext, show (a.liveState s).beam = [] from hbeam]
      dsimp only
      rw [if_pos]
      exact congrArg Prod.fst hnone
    · rw [heq] at hend
      cases hend
    · rw [heq] at hend
      cases hend
    · rw [heq] at hend
      cases hend

/-- The entry point has been deleted, its neighbour has not. -/
def startDeleted : DynamicSearch ℕ ℕ where
  memTags := []
  entryPointId := 0
  curId := 1
  K := 1
  searchL := 1
  beamWidth := 1
  node id := ⟨[10, 5].getD id 0, [[1], []].getD id []⟩
  computeDist id := [10, 5].getD id 0
  compare := id
  isExcluded id := id = 0
  searchL_pos := Nat.one_pos
  beamWidth_pos := Nat.one_pos

/-- A state of it, with the array of candidates up to `retset`. -/
def startDeletedState (retset : List (Neighbor ℕ)) (visited : List ℕ) (nk k : ℕ) (beam : List ℕ)
    (fullRetset : List (Neighbor ℕ)) (coords : Coords ℕ) : State ℕ ℕ where
  cands :=
    { retset := retset ++ List.replicate (10 - retset.length) default
      curListSize := 1
      visited
      nk }
  k
  lSearch := 1
  beam
  fullRetset
  coords

theorem keeps_startDeleted {s : State ℕ ℕ}
    (h : Reach startDeleted.search.Init startDeleted.search.Step s) : startDeleted.Keeps s := by
  have hrun : ∃ coords,
      s = startDeletedState [.new 0 10 true] [0] 0 0 [] [] coords ∨
      s = startDeletedState [.new 0 10 false] [0] 1 0 [0] [] coords ∨
      s = startDeletedState [.new 1 5 true, .new 0 10 false] [1, 0] 0 0 [] [.new 0 10 true] coords ∨
      s = startDeletedState [.new 1 5 false, .new 0 10 false] [1, 0] 1 0 [1]
        [.new 0 10 true] coords ∨
      s = startDeletedState [.new 1 5 false, .new 0 10 false] [1, 0] 1 1 []
        [.new 0 10 true, .new 1 5 true] coords := by
    induction h with
    | start h =>
      obtain ⟨scratch, buf, rfl⟩ := h
      exact ⟨_, Or.inl rfl⟩
    | @next s s' u _ hstep ih =>
      rcases ih with ⟨coords, rfl | rfl | rfl | rfl | rfl⟩
      · exact ⟨coords, Or.inr (Or.inl (Option.some.inj hstep).symm)⟩
      · exact ⟨{ coords with scratch := some 10 },
          Or.inr (Or.inr (Or.inl (Option.some.inj hstep).symm))⟩
      · exact ⟨coords, Or.inr (Or.inr (Or.inr (Or.inl (Option.some.inj hstep).symm)))⟩
      · exact ⟨{ coords with scratch := some 5 },
          Or.inr (Or.inr (Or.inr (Or.inr (Option.some.inj hstep).symm)))⟩
      · exact absurd (show none = some s' from hstep) (by simp)
  rcases hrun with ⟨coords, rfl | rfl | rfl | rfl | rfl⟩
  · exact (rfl : [0] = [0])
  · refine ⟨?_, Or.inr (Or.inr (le_refl 1)), trivial⟩
    exact forall_mem_singleton.2 (le_refl 1)
  · exact (rfl : [1] = [1])
  · exact ⟨forall_mem_nil _, trivial⟩
  · exact ⟨one_pos, Or.inl (le_refl 1)⟩

theorem search_eq_live_startDeleted :
    (∃ s, Reach startDeleted.search.Init startDeleted.search.Step s ∧
        startDeleted.search.step s = none) ∧
      ∀ s, Reach startDeleted.search.Init startDeleted.search.Step s →
        startDeleted.search.step s = none →
          ∃ t, Reach startDeleted.LiveInit startDeleted.LiveStep t ∧ startDeleted.liveNext t = [] ∧
            startDeleted.returned s.fullRetset = startDeleted.firstLive t.fullRetset :=
  startDeleted.search_eq_live fun _ => keeps_startDeleted

/-- The entry point has two neighbours; the nearer one has been deleted. -/
def nearerDeleted : DynamicSearch ℕ ℕ where
  memTags := []
  entryPointId := 0
  curId := 2
  K := 1
  searchL := 1
  beamWidth := 1
  node id := ⟨[10, 5, 1].getD id 0, [[1, 2], [], []].getD id []⟩
  computeDist id := [10, 5, 1].getD id 0
  compare := id
  isExcluded id := id = 2
  searchL_pos := Nat.one_pos
  beamWidth_pos := Nat.one_pos

/-- The states of the search that is meant. -/
def nearerDeletedStates : List (LiveState ℕ) :=
  (fun l => l ++ l.flatMap nearerDeleted.liveNext)^[6]
    [⟨nearerDeleted.search.seeds, nearerDeleted.search.seeds.map Neighbor.id, [], []⟩]

/-- The deleted neighbour takes the place of the other, which is not expanded. -/
theorem nearerDeleted_loses :
    ∃ s, Reach nearerDeleted.search.Init nearerDeleted.search.Step s ∧
      nearerDeleted.search.step s = none ∧
      ∀ t, Reach nearerDeleted.LiveInit nearerDeleted.LiveStep t → nearerDeleted.liveNext t = [] →
        nearerDeleted.returned s.fullRetset ≠ nearerDeleted.firstLive t.fullRetset := by
  have hrun : ((runs (fun s (_ : Unit) => nearerDeleted.search.step s)
      (nearerDeleted.search.newState none fun _ => none) [(), (), (), ()]).map fun s =>
        ((nearerDeleted.search.step s).isNone, nearerDeleted.returned s.fullRetset)) =
          some (true, []) := by
    decide +kernel
  obtain ⟨s, hs, hview⟩ := map_eq_some_iff.1 hrun
  obtain ⟨hnone, hreturned⟩ := Prod.mk.inj hview
  have hclosed : ∀ t ∈ nearerDeletedStates, ∀ t' ∈ nearerDeleted.liveNext t,
      t' ∈ nearerDeletedStates := by
    decide +kernel
  have hall : ∀ t, Reach nearerDeleted.LiveInit nearerDeleted.LiveStep t →
      t ∈ nearerDeletedStates := by
    intro t ht
    refine ht.invariant ?_ fun t _ t' ht hstep => hclosed t ht t' hstep
    rintro t rfl
    decide +kernel
  have hfound : ∀ t ∈ nearerDeletedStates, nearerDeleted.liveNext t = [] →
      [] ≠ nearerDeleted.firstLive t.fullRetset := by
    decide +kernel
  refine ⟨s, reach_of_runs (.start ⟨none, fun _ => none, rfl⟩) hs,
    isNone_iff_eq_none.1 hnone, fun t ht hend => ?_⟩
  rw [hreturned]
  exact hfound t (hall t ht) hend

end DynamicSearch

end DiskANNEval.PipeANN
