import Mathlib.Data.Finset.Card
import Mathlib.Data.List.Basic
import ArrayPhrase.TokenCache

/-! Requests to the token cache against the history of all requests. What the cache holds are the
sources requested most recently, as many as there is room for, the latest one first. So a request
is a hit exactly when its source was requested before and fewer other sources since then than the
cache has room for. -/

namespace ArrayPhrase

/-! ### The order of latest requests -/

/-- The sources of a history, each once, the one requested last standing first. -/
def recency (history : List String) : List String :=
  history.foldl (fun recent source => source :: recent.filter (· ≠ source)) []

variable {history since recent : List String} {source : String} {capacity : ℕ}

theorem recency_concat (history : List String) (source : String) :
    recency (history ++ [source]) = source :: (recency history).filter (· ≠ source) := by
  simp [recency]

theorem mem_recency : source ∈ recency history ↔ source ∈ history := by
  induction history using List.reverseRecOn with
  | nil => simp [recency]
  | append_singleton history latest ih =>
    rw [recency_concat, List.mem_cons, List.mem_filter, ih, List.mem_append, List.mem_singleton]
    by_cases h : source = latest <;> simp [h]

theorem nodup_recency (history : List String) : (recency history).Nodup := by
  induction history using List.reverseRecOn with
  | nil => exact List.nodup_nil
  | append_singleton history latest ih =>
    rw [recency_concat, List.nodup_cons]
    exact ⟨by simp, ih.filter _⟩

theorem length_recency (history : List String) :
    (recency history).length = history.toFinset.card := by
  rw [← List.toFinset_card_of_nodup (nodup_recency history)]
  congr 1
  ext source
  simp [mem_recency]

/-- What was requested since the last request for a source stands before it. -/
theorem recency_append_cons (earlier : List String) (h : source ∉ since) :
    ∃ rest, recency (earlier ++ source :: since) = recency since ++ source :: rest := by
  induction since using List.reverseRecOn with
  | nil => exact ⟨_, recency_concat earlier source⟩
  | append_singleton since latest ih =>
    simp only [List.mem_append, List.mem_singleton, not_or] at h
    obtain ⟨rest, hrest⟩ := ih h.1
    refine ⟨rest.filter (· ≠ latest), ?_⟩
    rw [← List.cons_append, ← List.append_assoc, recency_concat, hrest, recency_concat,
      List.filter_append, List.filter_cons_of_pos (by simpa using h.2), List.cons_append]

theorem mem_take_append_cons_iff {before after : List String} (h : source ∉ before) :
    source ∈ (before ++ source :: after).take capacity ↔ before.length < capacity := by
  rw [List.take_append, List.mem_append]
  constructor
  · rintro (hmem | hmem)
    · exact absurd (List.mem_of_mem_take hmem) h
    · by_contra hle
      rw [Nat.sub_eq_zero_of_le (not_lt.1 hle)] at hmem
      cases hmem
  · intro hlt
    obtain ⟨n, hn⟩ := Nat.exists_eq_succ_of_ne_zero (Nat.sub_ne_zero_of_lt hlt)
    rw [hn]
    exact .inr List.mem_cons_self

/-- The source was requested before, and fewer than `capacity` others have been since. -/
def RequestedWithin (capacity : ℕ) (history : List String) (source : String) : Prop :=
  ∃ earlier since, history = earlier ++ source :: since ∧ source ∉ since ∧
    since.toFinset.card < capacity

theorem exists_last_request (h : source ∈ history) :
    ∃ earlier since, history = earlier ++ source :: since ∧ source ∉ since := by
  obtain ⟨before, after, hsplit, hbefore⟩ :=
    List.eq_append_cons_of_mem (List.mem_reverse.2 h)
  refine ⟨after.reverse, before.reverse, ?_, by simpa using hbefore⟩
  rw [← List.reverse_reverse history, hsplit]
  simp

theorem mem_take_recency_iff :
    source ∈ (recency history).take capacity ↔ RequestedWithin capacity history source := by
  have hsplit : ∀ earlier since, source ∉ since →
      (source ∈ (recency (earlier ++ source :: since)).take capacity ↔
        since.toFinset.card < capacity) := by
    intro earlier since h
    obtain ⟨rest, hrest⟩ := recency_append_cons earlier h
    rw [hrest, mem_take_append_cons_iff (mem_recency.not.2 h), length_recency]
  constructor
  · intro hmem
    have hrequested := mem_recency.1 (List.mem_of_mem_take hmem)
    obtain ⟨earlier, since, rfl, h⟩ := exists_last_request hrequested
    exact ⟨earlier, since, rfl, h, (hsplit earlier since h).1 hmem⟩
  · rintro ⟨earlier, since, rfl, h, hcard⟩
    exact (hsplit earlier since h).2 hcard

/-! ### The most recent sources after one more request -/

theorem filter_ne_eq_self {sources : List String} (h : source ∉ sources) :
    sources.filter (· ≠ source) = sources := by
  rw [List.filter_eq_self]
  intro other hother
  rw [decide_eq_true_eq]
  rintro rfl
  exact h hother

/-- A source among the first ones comes to the front, and none of the first ones is lost. -/
theorem cons_filter_take (hnodup : recent.Nodup) (h : source ∈ recent.take capacity) :
    source :: (recent.take capacity).filter (· ≠ source) =
      (source :: recent.filter (· ≠ source)).take capacity := by
  obtain ⟨before, after, rfl, hbefore⟩ := List.eq_append_cons_of_mem (List.mem_of_mem_take h)
  have hlt := (mem_take_append_cons_iff hbefore).1 h
  have hafter : source ∉ after :=
    (List.nodup_cons.1 (List.nodup_append.1 hnodup).2.1).1
  obtain ⟨n, rfl⟩ : ∃ n, capacity = before.length + (n + 1) :=
    ⟨capacity - before.length - 1, by omega⟩
  rw [List.take_length_add_append, List.take_succ_cons, List.filter_append, List.filter_append,
    List.filter_cons_of_neg (by simp), List.filter_cons_of_neg (by simp),
    filter_ne_eq_self hbefore, filter_ne_eq_self hafter,
    filter_ne_eq_self fun hmem => hafter (List.mem_of_mem_take hmem), ← Nat.add_assoc,
    List.take_succ_cons, List.take_length_add_append]

/-- A source that is not among the first ones comes before them, and the last of them may go. -/
theorem take_cons_take (h : source ∉ recent.take capacity) :
    (source :: recent.take capacity).take capacity =
      (source :: recent.filter (· ≠ source)).take capacity := by
  cases capacity with
  | zero => rfl
  | succ n =>
    have hkeep := filter_ne_eq_self h
    rw [List.take_succ_cons, List.take_succ_cons, List.take_take, min_eq_left (Nat.le_succ n)]
    congr 1
    by_cases hn : n ≤ recent.length
    · have hlen : n ≤ (recent.take (n + 1)).length := by
        rw [List.length_take]
        omega
      rw [← List.take_append_drop (n + 1) recent, List.filter_append, hkeep,
        List.take_append_of_le_length hlen, List.take_append_of_le_length hlen]
    · rw [List.take_of_length_le (by omega)] at hkeep
      rw [hkeep]

/-! ### What the cache holds -/

namespace TokenCache

/-- A source with its tokens. -/
def entry (source : String) : String × List String :=
  (source, tokenTexts source)

/-- The cache after requests made one after the other. -/
def after (cache : TokenCache) (sources : List String) : TokenCache :=
  sources.foldl (fun cache source => (cache.request source).2) cache

theorem requests_append (cache : TokenCache) (sources others : List String) :
    cache.requests (sources ++ others) =
      cache.requests sources ++ (cache.after sources).requests others := by
  induction sources generalizing cache with
  | nil => rfl
  | cons source sources ih =>
    rw [List.cons_append, requests, ih]
    rfl

theorem after_concat (cache : TokenCache) (sources : List String) (source : String) :
    cache.after (sources ++ [source]) = ((cache.after sources).request source).2 := by
  simp [after]

theorem lookup_map_entry (source : String) (sources : List String) :
    (sources.map entry).lookup source =
      if source ∈ sources then some (tokenTexts source) else none := by
  induction sources with
  | nil => rfl
  | cons other sources ih =>
    by_cases h : source = other
    · subst h
      simp [entry]
    · have hne : (source == other) = false := by simpa using h
      rw [List.map_cons, entry, List.lookup_cons, hne]
      simp [ih, h]

variable {cache : TokenCache}

theorem request_of_mem (hentries : cache.entries = recent.map entry) (h : source ∈ recent) :
    cache.request source = (tokenTexts source,
      ⟨cache.capacity, (source :: recent.filter (· ≠ source)).map entry, cache.hits + 1,
        cache.misses⟩) := by
  unfold request
  rw [hentries, lookup_map_entry, if_pos h]
  dsimp only
  rw [List.filter_map, List.map_cons]
  rfl

theorem request_of_not_mem (hentries : cache.entries = recent.map entry) (h : source ∉ recent) :
    cache.request source = (tokenTexts source,
      ⟨cache.capacity, ((source :: recent).take cache.capacity).map entry, cache.hits,
        cache.misses + 1⟩) := by
  unfold request
  rw [hentries, lookup_map_entry, if_neg h]
  dsimp only
  rw [List.map_take, List.map_cons]
  rfl

/-- The cache holds the most recent sources of the history, and has counted its requests. -/
structure Follows (cache : TokenCache) (capacity : ℕ) (history : List String) : Prop where
  capacity_eq : cache.capacity = capacity
  entries_eq : cache.entries = ((recency history).take capacity).map entry
  count_eq : cache.hits + cache.misses = history.length

theorem follows_empty (capacity : ℕ) : (empty capacity).Follows capacity [] := by
  refine ⟨rfl, ?_, rfl⟩
  simp [empty, recency]

namespace Follows

variable (h : cache.Follows capacity history)

include h

theorem request_of_within (hwithin : RequestedWithin capacity history source) :
    cache.request source = (tokenTexts source,
      ⟨capacity, ((recency (history ++ [source])).take capacity).map entry, cache.hits + 1,
        cache.misses⟩) := by
  have hmem := mem_take_recency_iff.2 hwithin
  rw [request_of_mem h.entries_eq hmem, cons_filter_take (nodup_recency history) hmem,
    recency_concat, h.capacity_eq]

theorem request_of_not_within (hwithin : ¬ RequestedWithin capacity history source) :
    cache.request source = (tokenTexts source,
      ⟨capacity, ((recency (history ++ [source])).take capacity).map entry, cache.hits,
        cache.misses + 1⟩) := by
  have hmem := mem_take_recency_iff.not.2 hwithin
  rw [request_of_not_mem h.entries_eq hmem, h.capacity_eq, take_cons_take hmem, recency_concat]

theorem fst_request (source : String) : (cache.request source).1 = tokenTexts source := by
  by_cases hwithin : RequestedWithin capacity history source
  · rw [h.request_of_within hwithin]
  · rw [h.request_of_not_within hwithin]

theorem request (source : String) :
    (cache.request source).2.Follows capacity (history ++ [source]) := by
  have hcount := h.count_eq
  by_cases hwithin : RequestedWithin capacity history source
  · rw [h.request_of_within hwithin]
    refine ⟨rfl, rfl, ?_⟩
    rw [List.length_append, List.length_singleton]
    dsimp only
    omega
  · rw [h.request_of_not_within hwithin]
    refine ⟨rfl, rfl, ?_⟩
    rw [List.length_append, List.length_singleton]
    dsimp only
    omega

theorem size_eq : cache.size = min capacity history.toFinset.card := by
  rw [size, h.entries_eq, List.length_map, List.length_take, length_recency]

end Follows

theorem follows_after (capacity : ℕ) (history : List String) :
    ((empty capacity).after history).Follows capacity history := by
  induction history using List.reverseRecOn with
  | nil => exact follows_empty capacity
  | append_singleton history source ih =>
    rw [after_concat]
    exact ih.request source

/-- Among requests made one after the other from an empty cache on, each is answered as without a
cache. It is a hit exactly when its source was requested before and fewer other sources since then
than the cache has room for. Hits and misses are all requests, and the cache holds the sources
there were, up to its room. -/
theorem requests_hit_by_recency (capacity : ℕ) (history : List String) (source : String)
    (later : List String) :
    (empty capacity).requests (history ++ source :: later) =
        (empty capacity).requests history ++
          ((empty capacity).after history).requests (source :: later) ∧
      let cache := (empty capacity).after history
      let answer := cache.request source
      answer.1 = (tokenize source).map Token.text ∧
      cache.hits + cache.misses = history.length ∧
      cache.size = min capacity history.toFinset.card ∧
      (answer.2.hits = cache.hits + 1 ∧ answer.2.misses = cache.misses ↔
        RequestedWithin capacity history source) ∧
      (answer.2.hits = cache.hits ∧ answer.2.misses = cache.misses + 1 ↔
        ¬ RequestedWithin capacity history source) := by
  refine ⟨requests_append _ _ _, ?_⟩
  intro cache answer
  have h := follows_after capacity history
  refine ⟨h.fst_request source, h.count_eq, h.size_eq, ?_⟩
  by_cases hwithin : RequestedWithin capacity history source
  · have hanswer : answer = _ := h.request_of_within hwithin
    rw [hanswer]
    exact ⟨iff_of_true ⟨rfl, rfl⟩ hwithin,
      iff_of_false (fun hmiss => Nat.succ_ne_self _ hmiss.1) (not_not.2 hwithin)⟩
  · have hanswer : answer = _ := h.request_of_not_within hwithin
    rw [hanswer]
    exact ⟨iff_of_false (fun hhit => Nat.succ_ne_self _ hhit.2) hwithin,
      iff_of_true ⟨rfl, rfl⟩ hwithin⟩

/-- A hit makes its source the most recent one, so that the next source to go is another. -/
example :
    let cache := (empty 2).after ["+", "-", "+", "*"]
    (cache.request "+").2.hits = 2 ∧ (cache.request "-").2.misses = 4 := by
  decide +kernel

end TokenCache
end ArrayPhrase
