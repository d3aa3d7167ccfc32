/-
  Net/HttpCacheRun.lean --- what the cache still returns after a call that is to remove it.

  What is stored is numbered by the call that stores it, from one on; zero stands for what was
  on disk at the start.  Two of the three removals leave a tier as it is: `no-store` the memory,
  `mini_httpcache_clear` the disk.
-/
import TinyFramework.Net.CacheMeta

set_option autoImplicit false

namespace TinyFramework.Net

open TinyFramework.Foundation

/-! ## Calls -/

/-- A response that is handed to the cache: its URL fits into a line, its length into a `size_t`. -/
structure CachedResponse where
  request : StoreRequest Unit
  short : request.url.length ≤ 1018
  sized : request.body.length < 2 ^ 64

/-- The response as the call of a number stores it. -/
def CachedResponse.numbered (r : CachedResponse) (n : Nat) : StoreRequest Nat :=
  { r.request with origin := n }

inductive CacheCall where
  | store (r : CachedResponse)
  | invalidate (url : Bytes)
  | clear
  | get (url : Bytes)
  | getAny (url : Bytes)
  | conditionalHeaders (url : Bytes)

/-- A call, and the time at which it is made. -/
structure CacheStep where
  now : Int
  call : CacheCall

namespace CacheStep

/-- The call of a number. -/
def exec (s : CacheStep) (n : Nat) (cache : HttpCache Nat) : HttpCache Nat :=
  match s.call with
  | .store r => miniHttpcacheStore cache s.now (r.numbered n)
  | .invalidate url => miniHttpcacheInvalidate cache url
  | .clear => miniHttpcacheClear cache
  | .get url => (miniHttpcacheGet cache s.now url).2
  | .getAny url => (miniHttpcacheGetAny cache url).2
  | .conditionalHeaders url => (miniHttpcacheConditionalHeaders cache url).2

/-- After the call nothing is to be left of a URL. -/
def Clears (s : CacheStep) (url : Bytes) : Prop :=
  match s.call with
  | .store r => r.request.url = url ∧ (miniHttpcacheParseCc r.request.cacheControl).noStore = true
  | .invalidate u => u = url
  | .clear => True
  | _ => False

/-- Nothing is kept in the tier that the call does not look at. -/
def Safe (s : CacheStep) (cache : HttpCache Nat) : Prop :=
  match s.call with
  | .store r => (miniHttpcacheParseCc r.request.cacheControl).noStore = true →
      ∀ e ∈ cache.entries, e.url ≠ r.request.url
  | .clear => ∀ url, loadFromDisk cache.disk url = none
  | _ => True

end CacheStep

/-- The memory at the start of the program is empty, the files are left from earlier runs. -/
def startCache (metaFile binFile : CacheFile → Option Bytes) : HttpCache Nat :=
  { entries := [], disk := { metaFile := metaFile, binFile := binFile, origin := fun _ => 0 } }

/-- The cache after a history. -/
def cacheAfter (start : HttpCache Nat) (steps : List CacheStep) : HttpCache Nat :=
  (steps.zipIdx 1).foldl (fun cache s => s.1.exec s.2 cache) start

theorem cacheAfter_concat (start : HttpCache Nat) (steps : List CacheStep) (s : CacheStep) :
    cacheAfter start (steps ++ [s]) = s.exec (steps.length + 1) (cacheAfter start steps) := by
  rw [cacheAfter, List.zipIdx_append, List.foldl_append, Nat.add_comm 1]
  rfl

/-! ## What a call does -/

variable {τ : Type}

theorem lookup_origin {cache : HttpCache τ} {url : Bytes} {e : MiniCacheEntry τ}
    (he : e ∈ (findEntry cache url).2.entries) :
    e ∈ cache.entries ∨ loadFromDisk cache.disk e.url = some e := by
  rcases findEntry_cases cache url with ⟨d, -, -, hfind⟩ | ⟨d, hload, -, hfind⟩ | ⟨-, -, hfind⟩
  · exact Or.inl (by rwa [hfind] at he)
  · rw [hfind] at he
    rcases mem_pushEntry he with rfl | he
    · exact Or.inr (by rwa [(loadFromDisk_cases hload).1])
    · exact Or.inl he
  · exact Or.inl (by rwa [hfind] at he)

theorem lookup_disk (cache : HttpCache τ) (url : Bytes) :
    (findEntry cache url).2.disk = cache.disk := by
  rcases findEntry_cases cache url with ⟨d, -, -, hfind⟩ | ⟨d, -, -, hfind⟩ | ⟨-, -, hfind⟩ <;>
    rw [hfind]

theorem lookup_nodup {cache : HttpCache τ} (url : Bytes)
    (hdistinct : (cache.entries.map MiniCacheEntry.url).Nodup) :
    ((findEntry cache url).2.entries.map MiniCacheEntry.url).Nodup := by
  rcases findEntry_cases cache url with ⟨d, -, -, hfind⟩ | ⟨d, hload, hnone, hfind⟩ |
    ⟨-, -, hfind⟩
  · rwa [hfind]
  · have hslot : KeyedTable.slot MiniCacheEntry.url d.url cache.entries = none :=
      KeyedTable.slot_eq_none.2 ((loadFromDisk_cases hload).1 ▸ hnone)
    have hplace : ((KeyedTable.place MiniCacheEntry.url maxEntries d cache.entries).map
        MiniCacheEntry.url).Nodup := KeyedTable.nodup_place hdistinct
    rw [KeyedTable.place_of_none hslot] at hplace
    rwa [hfind]
  · rwa [hfind]

namespace CacheStep

variable {s : CacheStep} {n : Nat} {cache : HttpCache Nat} {url : Bytes} {e : MiniCacheEntry Nat}

/-- All that a call can do. -/
theorem exec_cases (s : CacheStep) (n : Nat) (cache : HttpCache Nat) :
    s.exec n cache = cache ∨ (∃ url, s.exec n cache = (findEntry cache url).2) ∨
    (∃ url, s.exec n cache = { cache with disk := deleteFromDisk cache.disk url }) ∨
    (∃ url, s.exec n cache = miniHttpcacheInvalidate cache url) ∨
    s.exec n cache = miniHttpcacheClear cache ∨
    ∃ r, s.call = .store r ∧ r.request.url ≠ [] ∧ s.exec n cache =
      let e := (r.numbered n).entry s.now r.request.url
      { entries := KeyedTable.place MiniCacheEntry.url maxEntries e cache.entries
        disk := saveToDisk cache.disk e } := by
  unfold exec
  cases s.call with
  | store r =>
    rcases store_cases cache s.now (r := r.numbered n)
      (Nat.le_trans r.short (by decide)) with ⟨-, h⟩ | ⟨-, h⟩ | ⟨-, -, h⟩ | ⟨-, hurl, -, h⟩
    · exact Or.inl h
    · exact Or.inr (Or.inr (Or.inl ⟨_, h⟩))
    · exact Or.inl h
    · exact Or.inr (Or.inr (Or.inr (Or.inr (Or.inr ⟨r, rfl, hurl, h⟩))))
  | invalidate url => exact Or.inr (Or.inr (Or.inr (Or.inl ⟨url, rfl⟩)))
  | clear => exact Or.inr (Or.inr (Or.inr (Or.inr (Or.inl rfl))))
  | get url => exact Or.inr (Or.inl ⟨url, congrArg Prod.snd (miniHttpcacheGet_eq cache s.now url)⟩)
  | getAny url => exact Or.inr (Or.inl ⟨url, rfl⟩)
  | conditionalHeaders url =>
    exact Or.inr (Or.inl ⟨url, miniHttpcacheConditionalHeaders_snd cache url⟩)

/-- What is in memory after a call was stored by it, or was in one of the tiers. -/
theorem mem_exec (hdistinct : (cache.entries.map MiniCacheEntry.url).Nodup)
    (he : e ∈ (s.exec n cache).entries) :
    e.origin = n ∨ e ∈ cache.entries ∨ loadFromDisk cache.disk e.url = some e := by
  rcases s.exec_cases n cache with h | ⟨url, h⟩ | ⟨url, h⟩ | ⟨url, h⟩ | h | ⟨r, -, -, h⟩
  · exact Or.inr (Or.inl (h ▸ he))
  · exact Or.inr (lookup_origin (h ▸ he))
  · rw [h] at he
    exact Or.inr (Or.inl he)
  · rw [h] at he
    exact Or.inr (Or.inl (List.mem_of_mem_eraseP he))
  · rw [h] at he
    cases he
  · rw [h] at he
    rcases KeyedTable.mem_place hdistinct he with rfl | ⟨he, -⟩
    · exact Or.inl rfl
    · exact Or.inr (Or.inl he)

/-- What can be loaded after a call was stored by it, or could be loaded. -/
theorem load_exec (he : loadFromDisk (s.exec n cache).disk url = some e) :
    e.origin = n ∨ loadFromDisk cache.disk url = some e := by
  rcases s.exec_cases n cache with h | ⟨u, h⟩ | ⟨u, h⟩ | ⟨u, h⟩ | h | ⟨r, -, hurl, h⟩
  · exact Or.inr (h ▸ he)
  · rw [h, lookup_disk] at he
    exact Or.inr he
  · rw [h] at he
    exact Or.inr (loadFromDisk_delete he)
  · rw [h] at he
    exact Or.inr (loadFromDisk_delete he)
  · rw [h] at he
    exact Or.inr he
  · rw [h] at he
    exact loadFromDisk_save hurl he

theorem nodup_exec (hdistinct : (cache.entries.map MiniCacheEntry.url).Nodup) :
    ((s.exec n cache).entries.map MiniCacheEntry.url).Nodup := by
  rcases s.exec_cases n cache with h | ⟨url, h⟩ | ⟨url, h⟩ | ⟨url, h⟩ | h | ⟨r, -, -, h⟩
  · rwa [h]
  · rw [h]
    exact lookup_nodup url hdistinct
  · rwa [h]
  · rw [h]
    exact hdistinct.sublist (List.eraseP_sublist.map MiniCacheEntry.url)
  · rw [h]
    exact List.nodup_nil
  · rw [h]
    exact KeyedTable.nodup_place hdistinct

end CacheStep

/-! ## The invariant of a run -/

/-- No URL is twice in memory, and nothing was stored by a call to come. -/
structure CacheInv (n : Nat) (cache : HttpCache Nat) : Prop where
  distinct : (cache.entries.map MiniCacheEntry.url).Nodup
  entries : ∀ e ∈ cache.entries, e.origin ≤ n
  disk : ∀ url e, loadFromDisk cache.disk url = some e → e.origin ≤ n

theorem CacheInv.step {n : Nat} {cache : HttpCache Nat} (h : CacheInv n cache) (s : CacheStep) :
    CacheInv (n + 1) (s.exec (n + 1) cache) := by
  refine ⟨CacheStep.nodup_exec h.distinct, fun e he => ?_, fun url e he => ?_⟩
  · rcases CacheStep.mem_exec h.distinct he with horigin | he | he
    · exact Nat.le_of_eq horigin
    · exact Nat.le_succ_of_le (h.entries e he)
    · exact Nat.le_succ_of_le (h.disk _ e he)
  · rcases CacheStep.load_exec he with horigin | he
    · exact Nat.le_of_eq horigin
    · exact Nat.le_succ_of_le (h.disk url e he)

variable (metaFile binFile : CacheFile → Option Bytes)

theorem cacheInv_after (steps : List CacheStep) :
    CacheInv steps.length (cacheAfter (startCache metaFile binFile) steps) := by
  induction steps using List.reverseRecOn with
  | nil =>
    refine ⟨List.nodup_nil, fun e he => absurd he List.not_mem_nil, fun url e he => ?_⟩
    exact Nat.le_of_eq (loadFromDisk_cases he).2
  | append_singleton steps s ih =>
    rw [cacheAfter_concat, List.length_append, List.length_singleton]
    exact ih.step s

/-! ## The numbers tell where a body is from -/

/-- The body is the one that the call of the number stored. -/
def BodyFrom (steps : List CacheStep) (n : Nat) (body : Bytes) : Prop :=
  ∀ i, n = i + 1 → ∃ s r, steps[i]? = some s ∧ s.call = .store r ∧ r.request.body = body

theorem BodyFrom.concat {steps : List CacheStep} {n : Nat} {body : Bytes}
    (h : BodyFrom steps n body) (s : CacheStep) : BodyFrom (steps ++ [s]) n body := by
  intro i hi
  obtain ⟨s', r, hs', hr, hbody⟩ := h i hi
  obtain ⟨hlt, -⟩ := List.getElem?_eq_some_iff.1 hs'
  exact ⟨s', r, by rwa [List.getElem?_append_left hlt], hr, hbody⟩

/-- A meta file that a call wrote is that of its response, and the body beside it is, too. -/
def DiskFrom (steps : List CacheStep) (disk : CacheDisk Nat) : Prop :=
  ∀ file text, disk.metaFile file = some text → 0 < disk.origin file →
    ∃ d : MiniCacheEntry Nat, text = metaText d ∧ d.body.length < 2 ^ 64 ∧
      BodyFrom steps (disk.origin file) d.body ∧ (d.body ≠ [] → disk.binFile file = some d.body)

theorem DiskFrom.load {steps : List CacheStep} {disk : CacheDisk Nat} (h : DiskFrom steps disk)
    {url : Bytes} {e : MiniCacheEntry Nat} (he : loadFromDisk disk url = some e) :
    BodyFrom steps e.origin e.body := by
  intro i hi
  have horigin := (loadFromDisk_cases he).2
  unfold loadFromDisk at he
  split_ifs at he
  cases htext : disk.metaFile (urlToFilename url) with
  | none =>
    simp only [htext] at he
    cases he
  | some text =>
    obtain ⟨d, rfl, hsized, hfrom, hbin⟩ := h _ _ htext (by omega)
    have hbody : e.body = d.body := by
      simp only [htext, readMeta_bodyLen hsized] at he
      split_ifs at he with hurl hpos
      · have hne : d.body ≠ [] := by
          rintro hnil
          simp [hnil] at hpos
        rw [hbin hne] at he
        obtain rfl := Option.some.inj he
        simp [CacheMeta.entry]
      · obtain rfl := Option.some.inj he
        have hlength : d.body.length = 0 := by omega
        exact (List.length_eq_zero_iff.1 hlength).symm
    rw [hbody]
    exact hfrom i (horigin.symm.trans hi)

theorem DiskFrom.delete {steps : List CacheStep} {disk : CacheDisk Nat} (h : DiskFrom steps disk)
    (url : Bytes) : DiskFrom steps (deleteFromDisk disk url) := by
  intro file text htext hpos
  unfold deleteFromDisk at htext hpos ⊢
  split_ifs at htext hpos ⊢
  · exact h file text htext hpos
  · rcases eq_or_ne file (urlToFilename url) with rfl | hfile
    · simp at htext
    · simp only [Function.update_of_ne hfile] at htext ⊢
      exact h file text htext hpos

theorem DiskFrom.save {steps : List CacheStep} {disk : CacheDisk Nat} (h : DiskFrom steps disk)
    {e : MiniCacheEntry Nat} (hurl : e.url ≠ []) (hsized : e.body.length < 2 ^ 64)
    (hfrom : BodyFrom steps e.origin e.body) : DiskFrom steps (saveToDisk disk e) := by
  intro file text htext hpos
  rcases eq_or_ne file (urlToFilename e.url) with rfl | hfile
  · obtain ⟨hmeta, hbin, horigin⟩ := saveToDisk_self disk hurl
    rw [hmeta] at htext
    refine ⟨e, (Option.some.inj htext).symm, hsized, horigin ▸ hfrom, fun hne => ?_⟩
    rw [hbin, if_neg hne]
  · obtain ⟨hmeta, hbin, horigin⟩ := saveToDisk_of_ne disk e hfile
    rw [hmeta] at htext
    rw [horigin] at hpos ⊢
    rw [hbin]
    exact h file text htext hpos

/-- In every run, what is in a tier has the body of the response that its number says. -/
theorem bodyFrom_after (steps : List CacheStep) :
    (∀ e ∈ (cacheAfter (startCache metaFile binFile) steps).entries,
      BodyFrom steps e.origin e.body) ∧
    DiskFrom steps (cacheAfter (startCache metaFile binFile) steps).disk := by
  induction steps using List.reverseRecOn with
  | nil =>
    refine ⟨fun e he => absurd he List.not_mem_nil, fun file text htext hpos => ?_⟩
    exact absurd hpos (Nat.lt_irrefl 0)
  | append_singleton steps s ih =>
    rw [cacheAfter_concat]
    have hinv := cacheInv_after metaFile binFile steps
    generalize cacheAfter (startCache metaFile binFile) steps = cache at ih hinv
    have hmem : ∀ e ∈ cache.entries, BodyFrom (steps ++ [s]) e.origin e.body :=
      fun e he => (ih.1 e he).concat s
    have hdisk : DiskFrom (steps ++ [s]) cache.disk := fun file text htext hpos => by
      obtain ⟨d, rfl, hsized, hfrom, hbin⟩ := ih.2 file text htext hpos
      exact ⟨d, rfl, hsized, hfrom.concat s, hbin⟩
    rcases s.exec_cases (steps.length + 1) cache with h | ⟨u, h⟩ | ⟨u, h⟩ | ⟨u, h⟩ | h |
      ⟨r, hcall, hurl, h⟩
    · rw [h]
      exact ⟨hmem, hdisk⟩
    · rw [h, lookup_disk]
      refine ⟨fun e he => ?_, hdisk⟩
      rcases lookup_origin he with he | he
      · exact hmem e he
      · exact hdisk.load he
    · rw [h]
      exact ⟨hmem, hdisk.delete u⟩
    · rw [h]
      exact ⟨fun e he => hmem e (List.mem_of_mem_eraseP he), hdisk.delete u⟩
    · rw [h]
      exact ⟨fun e he => absurd he List.not_mem_nil, hdisk⟩
    · rw [h]
      have hnew : BodyFrom (steps ++ [s]) (steps.length + 1) r.request.body := by
        intro i hi
        obtain rfl : i = steps.length := by omega
        exact ⟨s, r, List.getElem?_concat_length, hcall, rfl⟩
      refine ⟨fun e he => ?_, hdisk.save hurl r.sized hnew⟩
      rcases KeyedTable.mem_place hinv.distinct he with rfl | ⟨he, -⟩
      · exact hnew
      · exact hmem e he

/-! ## Nothing older is returned -/

/-- Nothing of the URL is left that was stored up to a call. -/
def CleanSince (k : Nat) (url : Bytes) (cache : HttpCache Nat) : Prop :=
  (∀ e ∈ cache.entries, e.url = url → k < e.origin) ∧
  ∀ e, loadFromDisk cache.disk url = some e → k < e.origin

theorem CleanSince.step {k n : Nat} {url : Bytes} {cache : HttpCache Nat}
    (h : CleanSince k url cache) (hinv : CacheInv n cache) (hk : k ≤ n) (s : CacheStep) :
    CleanSince k url (s.exec (n + 1) cache) := by
  refine ⟨fun e he hurl => ?_, fun e he => ?_⟩
  · rcases CacheStep.mem_exec hinv.distinct he with horigin | he | he
    · exact horigin ▸ Nat.lt_succ_of_le hk
    · exact h.1 e he hurl
    · exact h.2 e (hurl ▸ he)
  · rcases CacheStep.load_exec he with horigin | he
    · exact horigin ▸ Nat.lt_succ_of_le hk
    · exact h.2 e he

/-- A removal that is safe leaves nothing. -/
theorem CacheStep.Safe.cleanSince {s : CacheStep} {n : Nat} {url : Bytes} {cache : HttpCache Nat}
    (hsafe : s.Safe cache) (hinv : CacheInv n cache) (hclears : s.Clears url) :
    CleanSince n url (s.exec (n + 1) cache) := by
  unfold CacheStep.Safe at hsafe
  unfold CacheStep.Clears at hclears
  unfold CacheStep.exec
  cases hcall : s.call with
  | store r =>
    simp only [hcall] at hsafe hclears
    obtain ⟨rfl, hnoStore⟩ := hclears
    have hmem : ∀ e ∈ cache.entries, e.url = r.request.url → n < e.origin :=
      fun e he hurl => absurd hurl (hsafe hnoStore e he)
    rcases store_cases cache s.now (r := r.numbered (n + 1))
      (Nat.le_trans r.short (by decide)) with ⟨hurl, h⟩ | ⟨-, h⟩ | ⟨hstore, -⟩ | ⟨hstore, -⟩
    · simp only [h]
      have hurl : r.request.url = [] := hurl
      refine ⟨hmem, fun e he => ?_⟩
      rw [loadFromDisk, if_pos hurl] at he
      cases he
    · simp only [h]
      refine ⟨hmem, fun e he => ?_⟩
      have hnone := loadFromDisk_delete_self cache.disk r.request.url
      cases he.symm.trans hnone
    · exact absurd (hstore.symm.trans hnoStore) Bool.false_ne_true
    · exact absurd (hstore.symm.trans hnoStore) Bool.false_ne_true
  | invalidate u =>
    simp only [hcall] at hclears
    subst hclears
    refine ⟨fun e he hurl => ?_, fun e he => ?_⟩
    · exact absurd hurl (KeyedTable.key_ne_of_mem_eraseP hinv.distinct he)
    · cases he.symm.trans (loadFromDisk_delete_self cache.disk u)
  | clear =>
    simp only [hcall] at hsafe
    refine ⟨fun e he => absurd he List.not_mem_nil, fun e he => ?_⟩
    cases he.symm.trans (hsafe url)
  | get u | getAny u | conditionalHeaders u =>
    simp only [hcall] at hclears

theorem CleanSince.after {k : Nat} {url : Bytes} {pre : List CacheStep}
    (h : CleanSince k url (cacheAfter (startCache metaFile binFile) pre)) (hk : k ≤ pre.length)
    (post : List CacheStep) :
    CleanSince k url (cacheAfter (startCache metaFile binFile) (pre ++ post)) := by
  induction post using List.reverseRecOn with
  | nil => rwa [List.append_nil]
  | append_singleton post s ih =>
    rw [← List.append_assoc, cacheAfter_concat]
    refine ih.step (cacheInv_after metaFile binFile _) ?_ s
    rw [List.length_append]
    exact Nat.le_add_right_of_le hk

/-- What `mini_httpcache_get` or `mini_httpcache_get_any` returns at some time. -/
def Returns (cache : HttpCache Nat) (url : Bytes) (e : MiniCacheEntry Nat) : Prop :=
  (∃ now, (miniHttpcacheGet cache now url).1.entry = some e) ∨
    (miniHttpcacheGetAny cache url).1 = some e

theorem returns_iff {cache : HttpCache Nat} {url : Bytes} {e : MiniCacheEntry Nat} :
    Returns cache url e ↔ (findEntry cache url).1 = some e := by
  refine ⟨?_, Or.inr⟩
  rintro (⟨now, hget⟩ | hany)
  · rw [miniHttpcacheGet_eq] at hget
    exact (Option.filter_eq_some_iff.1 hget).1
  · exact hany

theorem CleanSince.returns {k : Nat} {url : Bytes} {cache : HttpCache Nat}
    (h : CleanSince k url cache) {e : MiniCacheEntry Nat} (he : Returns cache url e) :
    k < e.origin := by
  rw [returns_iff] at he
  rcases findEntry_cases cache url with ⟨d, hd, hurl, hfind⟩ | ⟨d, hload, -, hfind⟩ | ⟨-, -, hfind⟩
  · rw [hfind] at he
    obtain rfl := Option.some.inj he
    exact h.1 d hd hurl
  · rw [hfind] at he
    obtain rfl := Option.some.inj he
    exact h.2 d hload
  · rw [hfind] at he
    cases he

/-- After a history, nothing is returned for a URL that was stored before a call that was to
remove it. -/
def NothingOlder (start : HttpCache Nat) (steps : List CacheStep) : Prop :=
  ∀ pre removal post, steps = pre ++ removal :: post → ∀ url, removal.Clears url →
    ∀ e, Returns (cacheAfter start steps) url e → pre.length < e.origin

/-- This is so all through a run exactly if no response with `no-store` comes for a URL that is in
memory, and the cache is never cleared with something to be loaded on disk. -/
theorem nothingOlder_iff (steps : List CacheStep) :
    (∀ run, run <+: steps → NothingOlder (startCache metaFile binFile) run) ↔
      ∀ pre s, pre ++ [s] <+: steps → s.Safe (cacheAfter (startCache metaFile binFile) pre) := by
  constructor
  · intro holder pre s hprefix
    have hinv := cacheInv_after metaFile binFile pre
    have hnothing := holder (pre ++ [s]) hprefix pre s [] rfl
    rw [cacheAfter_concat] at hnothing
    unfold CacheStep.Safe
    unfold CacheStep.Clears CacheStep.exec at hnothing
    cases hcall : s.call with
    | store r =>
      simp only [hcall] at hnothing ⊢
      intro hnoStore e he hurl
      have hentries := store_noStore (cacheAfter (startCache metaFile binFile) pre)
        s.now (r := r.numbered (pre.length + 1)) hnoStore
      rcases findEntry_cases (miniHttpcacheStore (cacheAfter (startCache metaFile binFile) pre)
        s.now (r.numbered (pre.length + 1))) r.request.url with
        ⟨d, hd, -, hfind⟩ | ⟨-, -, hnone, -⟩ | ⟨-, hnone, -⟩
      · have hnew := hnothing r.request.url ⟨rfl, hnoStore⟩ d
          (returns_iff.2 (congrArg Prod.fst hfind))
        exact absurd (hinv.entries d (hentries ▸ hd)) (Nat.not_le_of_lt hnew)
      · exact hnone e (hentries ▸ he) hurl
      · exact hnone e (hentries ▸ he) hurl
    | clear =>
      simp only [hcall] at hnothing ⊢
      intro url
      cases hload : loadFromDisk (cacheAfter (startCache metaFile binFile) pre).disk url with
      | none => rfl
      | some e =>
        have hreturns : Returns (miniHttpcacheClear (cacheAfter (startCache metaFile binFile) pre))
            url e := by
          rw [returns_iff, miniHttpcacheClear, findEntry]
          simp [hload]
        exact absurd (hinv.disk url e hload) (Nat.not_le_of_lt (hnothing url trivial e hreturns))
    | invalidate u | get u | getAny u | conditionalHeaders u => trivial
  · intro hsafe run hrun pre removal post hsplit url hclears e he
    have hprefix : pre ++ [removal] <+: steps := by
      refine List.IsPrefix.trans ⟨post, ?_⟩ hrun
      rw [hsplit, List.append_assoc, List.singleton_append]
    have hclean := (hsafe pre removal hprefix).cleanSince (cacheInv_after metaFile binFile pre) hclears
    rw [← cacheAfter_concat] at hclean
    have hafter := hclean.after metaFile binFile (by simp) post
    rw [← List.append_cons, ← hsplit] at hafter
    exact hafter.returns he

/-- A response is stored, and then one for the same URL that is not to be. -/
def noStoreSteps : List CacheStep :=
  [⟨0, .store ⟨⟨ascii "https://x/y", 200, ascii "text/plain", ascii "hello", [], [],
      ascii "max-age=3600", ()⟩, by decide, by decide⟩⟩,
    ⟨1, .store ⟨⟨ascii "https://x/y", 200, ascii "text/plain", ascii "secret", [], [],
      ascii "no-store", ()⟩, by decide, by decide⟩⟩]

/-- The first one is still returned. -/
theorem noStore_keeps_older :
    ¬ NothingOlder (startCache (fun _ => none) fun _ => none) noStoreSteps := by
  intro holder
  have hfound : ((findEntry (cacheAfter (startCache (fun _ => none) fun _ => none) noStoreSteps)
      (ascii "https://x/y")).1.map MiniCacheEntry.origin) = some 1 := by decide +kernel
  obtain ⟨e, he, horigin⟩ := Option.map_eq_some_iff.1 hfound
  have hnew := holder noStoreSteps.dropLast _ [] rfl (ascii "https://x/y")
    ⟨rfl, by decide +kernel⟩ e (returns_iff.2 he)
  rw [horigin] at hnew
  exact absurd hnew (by decide)

end TinyFramework.Net
