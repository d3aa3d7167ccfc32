/-
  Net/HttpCache.lean --- the HTTP cache of `mini_httpcache.c`: a table in memory and two files
  for every entry.

  Numbers and times are unbounded, files can be opened and memory can be had.  A file name is
  the pair of hashes in it.  An entry carries one thing that the source does not have: what is
  to be remembered of the response that its body came from.
-/
import Mathlib.Data.List.Infix
import TinyFramework.Foundation.CText
import TinyFramework.Foundation.KeyedTable

set_option autoImplicit false

namespace TinyFramework.Net

open TinyFramework.Foundation

/-- `MAX_ENTRIES` -/
def maxEntries : Nat := 512

/-- `MiniCacheEntry`; `used` is never read. -/
structure MiniCacheEntry (τ : Type) where
  url : Bytes
  status : Int
  mime : Bytes
  body : Bytes
  etag : Bytes
  lastModified : Bytes
  storedAt : Int
  maxAge : Int
  noCache : Int
  noStore : Int
  /-- Not in the source: where the body came from. -/
  origin : τ
  deriving DecidableEq, Repr

/-! ## The meta file -/

/-- The `fprintf` calls of `mini_httpcache_save_to_disk`, each without its line break. -/
def metaLines {τ : Type} (e : MiniCacheEntry τ) : List Bytes :=
  [ascii "URL: " ++ e.url, ascii "STATUS: " ++ printInt e.status, ascii "MIME: " ++ e.mime,
    ascii "ETAG: " ++ e.etag, ascii "LAST_MODIFIED: " ++ e.lastModified,
    ascii "STORED_AT: " ++ printInt e.storedAt, ascii "MAX_AGE: " ++ printInt e.maxAge,
    ascii "NO_CACHE: " ++ printInt e.noCache, ascii "NO_STORE: " ++ printInt e.noStore,
    ascii "BODY_LEN: " ++ decimal e.body.length]

def metaText {τ : Type} (e : MiniCacheEntry τ) : Bytes := (metaLines e).flatMap (· ++ [10])

/-- What `fgets` returns, call after call, for a buffer of a size; `line` is what the call under
way has read. -/
def fgetsCalls (size : Nat) : Bytes → Bytes → List Bytes
  | line, [] => if line = [] then [] else [line]
  | line, b :: s =>
      if b = 10 ∨ line.length + 2 = size then (line ++ [b]) :: fgetsCalls size [] s
      else fgetsCalls size (line ++ [b]) s

/-- What is read of a meta file: `out_entry` and `body_len`. -/
structure CacheMeta where
  url : Bytes := []
  status : Int := 0
  mime : Bytes := []
  etag : Bytes := []
  lastModified : Bytes := []
  storedAt : Int := 0
  maxAge : Int := 0
  noCache : Int := 0
  noStore : Int := 0
  bodyLen : Int := 0
  deriving DecidableEq, Repr

/-- What a line can begin with, and what is done with the rest of it. -/
def metaFields : List (Bytes × (CacheMeta → Bytes → CacheMeta)) :=
  [(ascii "URL: ", fun m s => { m with url := s.take 1023 }),
    (ascii "STATUS: ", fun m s => { m with status := atoi s }),
    (ascii "MIME: ", fun m s => { m with mime := s.take 127 }),
    (ascii "ETAG: ", fun m s => { m with etag := s.take 255 }),
    (ascii "LAST_MODIFIED: ", fun m s => { m with lastModified := s.take 63 }),
    (ascii "STORED_AT: ", fun m s => { m with storedAt := atoi s }),
    (ascii "MAX_AGE: ", fun m s => { m with maxAge := atoi s }),
    (ascii "NO_CACHE: ", fun m s => { m with noCache := atoi s }),
    (ascii "NO_STORE: ", fun m s => { m with noStore := atoi s }),
    (ascii "BODY_LEN: ", fun m s => { m with bodyLen := atoi s })]

/-- One turn of the loop over the lines, without the line break. -/
def CacheMeta.readLine (m : CacheMeta) (line : Bytes) : CacheMeta :=
  (metaFields.find? fun f => f.1 <+: line).elim m fun f => f.2 m (line.drop f.1.length)

/-- Neither a null byte nor a carriage return nor a line break. -/
def inLine (b : UInt8) : Bool := b ≠ 0 && b ≠ 13 && b ≠ 10

/-- What is left of a line that was read. -/
def cutLine (line : Bytes) : Bytes := line.takeWhile inLine

/-- The loop over the lines of a text. -/
def CacheMeta.readText (m : CacheMeta) (text : Bytes) : CacheMeta :=
  (fgetsCalls 1024 [] text).foldl (fun m line => m.readLine (cutLine line)) m

/-- What a meta file says. -/
def readMeta (text : Bytes) : CacheMeta := CacheMeta.readText {} text

/-- An entry as the meta file and the body give it. -/
def CacheMeta.entry {τ : Type} (m : CacheMeta) (body : Bytes) (origin : τ) : MiniCacheEntry τ :=
  { url := m.url, status := m.status, mime := m.mime, body := body, etag := m.etag
    lastModified := m.lastModified, storedAt := m.storedAt, maxAge := m.maxAge
    noCache := m.noCache, noStore := m.noStore, origin := origin }

/-! ## The disk -/

/-- The two hashes that make up the name of a cache file. -/
abbrev CacheFile := UInt64 × UInt64

/-- `url_to_filename`, without the hexadecimal digits. -/
def urlToFilename (url : Bytes) : CacheFile :=
  url.foldl
    (fun h p => ((h.1 ^^^ p.toUInt64) * 0x100000001b3, (h.2 + p.toUInt64) * 0xcbf29ce484222325))
    (0xcbf29ce484222325, 0x100000001b3)

/-- The `.meta` and the `.bin` files.  `origin` goes with the meta file. -/
structure CacheDisk (τ : Type) where
  metaFile : CacheFile → Option Bytes
  binFile : CacheFile → Option Bytes
  origin : CacheFile → τ

/-- A change of one file: `fopen` for writing, and what is written until `fclose`. -/
inductive DiskWrite (τ : Type) where
  | truncateMeta (file : CacheFile)
  | writeMeta (file : CacheFile) (text : Bytes) (origin : τ)
  | truncateBin (file : CacheFile)
  | writeBin (file : CacheFile) (body : Bytes)

def DiskWrite.exec {τ : Type} (disk : CacheDisk τ) : DiskWrite τ → CacheDisk τ
  | .truncateMeta file => { disk with metaFile := Function.update disk.metaFile file (some []) }
  | .writeMeta file text origin =>
      { disk with
        metaFile := Function.update disk.metaFile file (some text)
        origin := Function.update disk.origin file origin }
  | .truncateBin file => { disk with binFile := Function.update disk.binFile file (some []) }
  | .writeBin file body => { disk with binFile := Function.update disk.binFile file (some body) }

/-- The writes of `mini_httpcache_save_to_disk`, in their order. -/
def saveWrites {τ : Type} (e : MiniCacheEntry τ) : List (DiskWrite τ) :=
  if e.url = [] then []
  else
    let file := urlToFilename e.url
    [.truncateMeta file, .writeMeta file (metaText e) e.origin] ++
      if e.body = [] then [] else [.truncateBin file, .writeBin file e.body]

/-- `mini_httpcache_save_to_disk` -/
def saveToDisk {τ : Type} (disk : CacheDisk τ) (e : MiniCacheEntry τ) : CacheDisk τ :=
  (saveWrites e).foldl DiskWrite.exec disk

/-- `mini_httpcache_load_from_disk`; a file that is shorter than `body_len` is read as it is, and
there is no memory for a negative length, which is a huge one. -/
def loadFromDisk {τ : Type} (disk : CacheDisk τ) (url : Bytes) : Option (MiniCacheEntry τ) :=
  if url = [] then none
  else
    let file := urlToFilename url
    match disk.metaFile file with
    | none => none
    | some text =>
      let m := readMeta text
      if m.url ≠ url ∨ m.bodyLen < 0 then none
      else if 0 < m.bodyLen then
        (disk.binFile file).map fun bin => m.entry (bin.take m.bodyLen.toNat) (disk.origin file)
      else some (m.entry [] (disk.origin file))

/-- `mini_httpcache_delete_from_disk` -/
def deleteFromDisk {τ : Type} (disk : CacheDisk τ) (url : Bytes) : CacheDisk τ :=
  if url = [] then disk
  else
    { disk with
      metaFile := Function.update disk.metaFile (urlToFilename url) none
      binFile := Function.update disk.binFile (urlToFilename url) none }

/-! ## `Cache-Control` -/

/-- `cc_has`: whether a word that a comma or the start stands before is the directive. -/
def ccHas (cc name : Bytes) : Bool :=
  if _hcc : cc = [] then false
  else
    let p := cc.dropWhile fun b => isspace b || b == 44
    let tok := p.takeWhile fun b => b ≠ 44 && !isspace b
    if strcasecmp tok name then true
    else
      ccHas (((cc.dropWhile fun b => isspace b || b == 44).drop
        ((cc.dropWhile fun b => isspace b || b == 44).takeWhile
          fun b => b ≠ 44 && !isspace b).length).dropWhile (· ≠ 44)) name
termination_by cc.length
decreasing_by
  have hcc : 0 < cc.length := List.length_pos_iff.2 _hcc
  have hrest := (List.dropWhile_sublist (· ≠ (44 : UInt8))
    (l := (cc.dropWhile fun b => isspace b || b == 44).drop
      ((cc.dropWhile fun b => isspace b || b == 44).takeWhile
        fun b => b ≠ 44 && !isspace b).length)).length_le
  rw [List.length_drop] at hrest
  have hskip := (List.dropWhile_sublist (fun b => isspace b || b == 44) (l := cc)).length_le
  cases hp : cc.dropWhile fun b => isspace b || b == 44 with
  | nil =>
    rw [hp] at hrest
    exact Nat.lt_of_le_of_lt hrest (by simpa using hcc)
  | cons b p =>
    have hhead := List.head?_dropWhile_not (fun b => isspace b || b == 44) cc
    rw [hp] at hrest hskip hhead
    have hb : (b ≠ 44 && !isspace b) = true := by
      simpa [and_comm] using hhead
    have htok : (b :: p).takeWhile (fun b => b ≠ 44 && !isspace b) =
        b :: p.takeWhile fun b => b ≠ 44 && !isspace b := List.takeWhile_cons_of_pos hb
    simp only [htok, List.length_cons] at hrest hskip ⊢
    omega

/-- What `mini_httpcache_parse_cc` gives: the `max-age` or -1, and two directives. -/
structure CacheControl where
  maxAge : Int
  noStore : Bool
  noCache : Bool
  deriving DecidableEq, Repr

/-- What stands behind `max-age`. -/
def maxAgeText (cc : Bytes) : Option Bytes :=
  (strcasestr (ascii "max-age") cc).map fun ma =>
    (ma.drop 7).dropWhile fun b => b == 32 || b == 61 || b == 9

/-- `mini_httpcache_parse_cc` -/
def miniHttpcacheParseCc (cc : Bytes) : CacheControl :=
  { maxAge := ((maxAgeText cc).bind scanInt).elim (-1) Prod.fst
    noStore := ccHas cc (ascii "no-store"), noCache := ccHas cc (ascii "no-cache") }

/-! ## The cache -/

/-- `g_entries` up to `g_n`, and the files. -/
structure HttpCache (τ : Type) where
  entries : List (MiniCacheEntry τ)
  disk : CacheDisk τ

variable {τ : Type}

/-- An entry behind the last, for which the first one goes if there are too many. -/
def pushEntry (entries : List (MiniCacheEntry τ)) (e : MiniCacheEntry τ) :
    List (MiniCacheEntry τ) :=
  KeyedTable.makeRoom maxEntries entries ++ [e]

/-- `find_idx`: the entry that is found, in memory or on disk. -/
def findEntry (cache : HttpCache τ) (url : Bytes) : Option (MiniCacheEntry τ) × HttpCache τ :=
  match cache.entries.find? fun e => e.url = url with
  | some e => (some e, cache)
  | none =>
    match loadFromDisk cache.disk url with
    | some e => (some e, { cache with entries := pushEntry cache.entries e })
    | none => (none, cache)

/-- The URLs of what hardly changes. -/
def isStaticResource (url : Bytes) : Bool :=
  ["unpkg.com", "cdnjs.cloudflare.com", "cdn.jsdelivr.net", "@", ".min.js", ".js", ".css", ".ttf",
    ".woff", ".woff2", ".png", ".jpg"].any fun part => decide (ascii part <:+: url)

/-- How long a response is fresh if nothing is said. -/
def heuristicMaxAge (url : Bytes) : Int := if isStaticResource url then 86400 * 30 else 86400

/-- The `max_age` that is stored. -/
def storedMaxAge (url : Bytes) (cc : CacheControl) : Int :=
  if cc.maxAge < 0 ∧ cc.noCache = false then heuristicMaxAge url else cc.maxAge

/-- A response as it is handed to `mini_httpcache_store`. -/
structure StoreRequest (τ : Type) where
  url : Bytes
  status : Int
  mime : Bytes
  body : Bytes
  etag : Bytes
  lastModified : Bytes
  cacheControl : Bytes
  origin : τ

/-- The entry that a response becomes; the URL is cut only where the entry is new. -/
def StoreRequest.entry (r : StoreRequest τ) (now : Int) (url : Bytes) : MiniCacheEntry τ :=
  let cc := miniHttpcacheParseCc r.cacheControl
  { url := url, status := r.status, mime := r.mime.take 127, body := r.body
    etag := r.etag.take 255, lastModified := r.lastModified.take 63, storedAt := now
    maxAge := storedMaxAge r.url cc, noCache := if cc.noCache then 1 else 0, noStore := 0
    origin := r.origin }

/-- `mini_httpcache_store` -/
def miniHttpcacheStore (cache : HttpCache τ) (now : Int) (r : StoreRequest τ) : HttpCache τ :=
  if r.url = [] then cache
  else if (miniHttpcacheParseCc r.cacheControl).noStore then
    { cache with disk := deleteFromDisk cache.disk r.url }
  else if r.status < 200 ∨ 300 ≤ r.status then cache
  else
    match cache.entries.findIdx? fun e => e.url = r.url with
    | some idx =>
        { entries := cache.entries.set idx (r.entry now r.url)
          disk := saveToDisk cache.disk (r.entry now r.url) }
    | none =>
        { entries := pushEntry cache.entries (r.entry now (r.url.take 1023))
          disk := saveToDisk cache.disk (r.entry now (r.url.take 1023)) }

/-- `fresh` -/
def fresh (e : MiniCacheEntry τ) (now : Int) : Bool :=
  if e.noCache ≠ 0 then false
  else if e.maxAge < 0 then false
  else decide (now - e.storedAt < e.maxAge)

/-- What `mini_httpcache_get` gives: the entry, and `stale`. -/
structure CacheLookup (τ : Type) where
  entry : Option (MiniCacheEntry τ)
  stale : Bool

/-- `mini_httpcache_get` -/
def miniHttpcacheGet (cache : HttpCache τ) (now : Int) (url : Bytes) :
    CacheLookup τ × HttpCache τ :=
  match findEntry cache url with
  | (none, cache) => (⟨none, false⟩, cache)
  | (some e, cache) => if fresh e now then (⟨some e, false⟩, cache) else (⟨none, true⟩, cache)

/-- `mini_httpcache_get_any` -/
def miniHttpcacheGetAny (cache : HttpCache τ) (url : Bytes) :
    Option (MiniCacheEntry τ) × HttpCache τ :=
  findEntry cache url

/-- `mini_httpcache_conditional_headers`, for a buffer that holds them; -1 is `none`. -/
def miniHttpcacheConditionalHeaders (cache : HttpCache τ) (url : Bytes) :
    Option Bytes × HttpCache τ :=
  match findEntry cache url with
  | (none, cache) => (none, cache)
  | (some e, cache) =>
      let ifNoneMatch :=
        if e.etag = [] then [] else ascii "If-None-Match: " ++ e.etag ++ [13, 10]
      let ifModifiedSince :=
        if e.lastModified = [] then []
        else ascii "If-Modified-Since: " ++ e.lastModified ++ [13, 10]
      (if e.etag = [] ∧ e.lastModified = [] then none else some (ifNoneMatch ++ ifModifiedSince),
        cache)

/-- `mini_httpcache_invalidate` -/
def miniHttpcacheInvalidate (cache : HttpCache τ) (url : Bytes) : HttpCache τ :=
  { entries := cache.entries.eraseP fun e => e.url = url
    disk := deleteFromDisk cache.disk url }

/-- `mini_httpcache_clear` -/
def miniHttpcacheClear (cache : HttpCache τ) : HttpCache τ := { cache with entries := [] }

example : miniHttpcacheParseCc (ascii "public, max-age=3600") = ⟨3600, false, false⟩ := by
  decide +kernel

/-! ## What is found -/

theorem loadFromDisk_cases {disk : CacheDisk τ} {url : Bytes} {e : MiniCacheEntry τ}
    (h : loadFromDisk disk url = some e) :
    e.url = url ∧ e.origin = disk.origin (urlToFilename url) := by
  unfold loadFromDisk at h
  split_ifs at h
  cases htext : disk.metaFile (urlToFilename url) with
  | none =>
    simp only [htext] at h
    cases h
  | some text =>
    simp only [htext] at h
    split_ifs at h with hurl hlen
    · obtain ⟨bin, -, rfl⟩ := Option.map_eq_some_iff.1 h
      exact ⟨not_not.1 fun hne => hurl (Or.inl hne), rfl⟩
    · obtain rfl := Option.some.inj h
      exact ⟨not_not.1 fun hne => hurl (Or.inl hne), rfl⟩

/-- The disk has an effect through the files of a name alone. -/
theorem loadFromDisk_congr {disk disk' : CacheDisk τ} {url : Bytes}
    (hmeta : disk.metaFile (urlToFilename url) = disk'.metaFile (urlToFilename url))
    (hbin : disk.binFile (urlToFilename url) = disk'.binFile (urlToFilename url))
    (horigin : disk.origin (urlToFilename url) = disk'.origin (urlToFilename url)) :
    loadFromDisk disk url = loadFromDisk disk' url := by
  unfold loadFromDisk
  simp only [hmeta, hbin, horigin]

/-- The files of a saved entry; without a body the old one stays. -/
theorem saveToDisk_self (disk : CacheDisk τ) {e : MiniCacheEntry τ} (hurl : e.url ≠ []) :
    (saveToDisk disk e).metaFile (urlToFilename e.url) = some (metaText e) ∧
    (saveToDisk disk e).binFile (urlToFilename e.url) =
      (if e.body = [] then disk.binFile (urlToFilename e.url) else some e.body) ∧
    (saveToDisk disk e).origin (urlToFilename e.url) = e.origin := by
  unfold saveToDisk saveWrites
  rw [if_neg hurl]
  split_ifs <;> simp [DiskWrite.exec]

theorem saveToDisk_of_ne (disk : CacheDisk τ) (e : MiniCacheEntry τ) {file : CacheFile}
    (hfile : file ≠ urlToFilename e.url) :
    (saveToDisk disk e).metaFile file = disk.metaFile file ∧
    (saveToDisk disk e).binFile file = disk.binFile file ∧
    (saveToDisk disk e).origin file = disk.origin file := by
  unfold saveToDisk saveWrites
  split_ifs <;> simp [DiskWrite.exec, hfile]

/-- What can be loaded after a save is of the entry, or could be loaded before. -/
theorem loadFromDisk_save {disk : CacheDisk τ} {e d : MiniCacheEntry τ} {url : Bytes}
    (hurl : e.url ≠ []) (h : loadFromDisk (saveToDisk disk e) url = some d) :
    d.origin = e.origin ∨ loadFromDisk disk url = some d := by
  rcases eq_or_ne (urlToFilename url) (urlToFilename e.url) with hfile | hfile
  · left
    rw [(loadFromDisk_cases h).2, hfile]
    exact (saveToDisk_self disk hurl).2.2
  · right
    obtain ⟨hmeta, hbin, horigin⟩ := saveToDisk_of_ne disk e hfile
    rw [← h]
    exact (loadFromDisk_congr hmeta hbin horigin).symm

theorem loadFromDisk_delete_self (disk : CacheDisk τ) (url : Bytes) :
    loadFromDisk (deleteFromDisk disk url) url = none := by
  unfold loadFromDisk deleteFromDisk
  split_ifs with hurl
  · rfl
  · simp

theorem loadFromDisk_delete {disk : CacheDisk τ} {url url' : Bytes} {e : MiniCacheEntry τ}
    (h : loadFromDisk (deleteFromDisk disk url) url' = some e) : loadFromDisk disk url' = some e := by
  unfold deleteFromDisk at h
  split_ifs at h
  · exact h
  · rcases eq_or_ne (urlToFilename url') (urlToFilename url) with hfile | hfile
    · unfold loadFromDisk at h
      split_ifs at h
      simp [hfile] at h
    · rw [← h]
      exact loadFromDisk_congr (by simp [hfile]) (by simp [hfile]) rfl

/-- A lookup finds the entry in memory, or loads it, or leaves everything as it is. -/
theorem findEntry_cases (cache : HttpCache τ) (url : Bytes) :
    (∃ e ∈ cache.entries, e.url = url ∧ findEntry cache url = (some e, cache)) ∨
    (∃ e, loadFromDisk cache.disk url = some e ∧ (∀ d ∈ cache.entries, d.url ≠ url) ∧
      findEntry cache url = (some e, { cache with entries := pushEntry cache.entries e })) ∨
    (loadFromDisk cache.disk url = none ∧ (∀ d ∈ cache.entries, d.url ≠ url) ∧
      findEntry cache url = (none, cache)) := by
  unfold findEntry
  cases hfind : cache.entries.find? fun e => e.url = url with
  | some e =>
    have hurl : e.url = url := by simpa using List.find?_some hfind
    exact Or.inl ⟨e, List.mem_of_find?_eq_some hfind, hurl, rfl⟩
  | none =>
    have hnone : ∀ d ∈ cache.entries, d.url ≠ url := by simpa using hfind
    cases hload : loadFromDisk cache.disk url with
    | some e => exact Or.inr (Or.inl ⟨e, rfl, hnone, rfl⟩)
    | none => exact Or.inr (Or.inr ⟨rfl, hnone, rfl⟩)

theorem mem_pushEntry {entries : List (MiniCacheEntry τ)} {e d : MiniCacheEntry τ}
    (h : d ∈ pushEntry entries e) : d = e ∨ d ∈ entries := by
  rcases List.mem_append.1 h with h | h
  · exact Or.inr (KeyedTable.makeRoom_sublist.subset h)
  · exact Or.inl (List.mem_singleton.1 h)

theorem miniHttpcacheGet_eq (cache : HttpCache τ) (now : Int) (url : Bytes) :
    miniHttpcacheGet cache now url =
      (⟨(findEntry cache url).1.filter (fresh · now),
        (findEntry cache url).1.any fun e => !fresh e now⟩, (findEntry cache url).2) := by
  unfold miniHttpcacheGet
  generalize findEntry cache url = found
  obtain ⟨_ | e, cache'⟩ := found
  · rfl
  · cases hfresh : fresh e now <;> simp [hfresh, Option.filter_some]

theorem miniHttpcacheConditionalHeaders_snd (cache : HttpCache τ) (url : Bytes) :
    (miniHttpcacheConditionalHeaders cache url).2 = (findEntry cache url).2 := by
  unfold miniHttpcacheConditionalHeaders
  generalize findEntry cache url = found
  obtain ⟨_ | e, cache'⟩ := found <;> rfl

theorem findEntry_of_find {cache : HttpCache τ} {url : Bytes} {e : MiniCacheEntry τ}
    (h : cache.entries.find? (fun d => d.url = url) = some e) :
    findEntry cache url = (some e, cache) := by
  unfold findEntry
  rw [h]

/-- What is stored is found. -/
theorem findEntry_place (entries : List (MiniCacheEntry τ)) (disk : CacheDisk τ)
    (e : MiniCacheEntry τ) :
    (findEntry ⟨KeyedTable.place MiniCacheEntry.url maxEntries e entries, disk⟩ e.url).1 = some e := by
  have hplaced : (KeyedTable.place MiniCacheEntry.url maxEntries e entries).find?
      (fun d => d.url = e.url) = some e := KeyedTable.find_place
  rw [findEntry_of_find hplaced]

/-- What was found is in memory afterwards. -/
theorem find_of_findEntry {cache : HttpCache τ} {url : Bytes} {e : MiniCacheEntry τ}
    (h : (findEntry cache url).1 = some e) :
    (findEntry cache url).2.entries.find? (fun d => d.url = url) = some e := by
  unfold findEntry at h ⊢
  cases hfind : cache.entries.find? fun d => d.url = url with
  | some d =>
    rw [hfind] at h
    exact hfind.trans h
  | none =>
    rw [hfind] at h
    cases hload : loadFromDisk cache.disk url with
    | none =>
      rw [hload] at h
      cases h
    | some d =>
      rw [hload] at h
      have hroom : (KeyedTable.makeRoom maxEntries cache.entries).find? (fun d => d.url = url) = none :=
        List.find?_eq_none.2 fun d hd =>
          List.find?_eq_none.1 hfind d (KeyedTable.makeRoom_sublist.subset hd)
      show (pushEntry cache.entries d).find? (fun d => d.url = url) = some e
      rw [pushEntry, List.find?_append, hroom, Option.none_or,
        List.find?_cons_of_pos (by simpa using (loadFromDisk_cases hload).1)]
      exact h

/-! ## What a store does -/

/-- A store does nothing, or removes files, or puts an entry into both tiers. -/
theorem store_cases (cache : HttpCache τ) (now : Int) {r : StoreRequest τ}
    (hshort : r.url.length ≤ 1023) :
    (r.url = [] ∧ miniHttpcacheStore cache now r = cache) ∨
    ((miniHttpcacheParseCc r.cacheControl).noStore = true ∧ miniHttpcacheStore cache now r =
      { cache with disk := deleteFromDisk cache.disk r.url }) ∨
    ((miniHttpcacheParseCc r.cacheControl).noStore = false ∧ (r.status < 200 ∨ 300 ≤ r.status) ∧
      miniHttpcacheStore cache now r = cache) ∨
    ((miniHttpcacheParseCc r.cacheControl).noStore = false ∧ r.url ≠ [] ∧
      ¬ (r.status < 200 ∨ 300 ≤ r.status) ∧ miniHttpcacheStore cache now r =
        { entries := KeyedTable.place MiniCacheEntry.url maxEntries (r.entry now r.url) cache.entries
          disk := saveToDisk cache.disk (r.entry now r.url) }) := by
  unfold miniHttpcacheStore
  split_ifs with hurl hnoStore hstatus
  · exact Or.inl ⟨hurl, rfl⟩
  · exact Or.inr (Or.inl ⟨hnoStore, rfl⟩)
  · exact Or.inr (Or.inr (Or.inl ⟨Bool.eq_false_iff.2 hnoStore, hstatus, rfl⟩))
  · refine Or.inr (Or.inr (Or.inr ⟨Bool.eq_false_iff.2 hnoStore, hurl, hstatus, ?_⟩))
    have htake : r.url.take 1023 = r.url := List.take_of_length_le hshort
    cases hslot : cache.entries.findIdx? fun e => e.url = r.url with
    | some i => simp only [KeyedTable.place_of_slot (x := r.entry now r.url) hslot]
    | none => simp only [KeyedTable.place_of_none (x := r.entry now r.url) hslot, htake, pushEntry]

/-- With `no-store` the memory stays as it is. -/
theorem store_noStore (cache : HttpCache τ) (now : Int) {r : StoreRequest τ}
    (hnoStore : (miniHttpcacheParseCc r.cacheControl).noStore = true) :
    (miniHttpcacheStore cache now r).entries = cache.entries := by
  unfold miniHttpcacheStore
  rw [if_pos hnoStore]
  split_ifs <;> rfl

end TinyFramework.Net
