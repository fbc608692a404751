import ArrayPhrase.Token

/-! A bounded memory of token texts by source. An answer from memory becomes the most recent entry,
and a full memory gives up the least recently used one. -/

namespace ArrayPhrase

/-- Entries stand most recently used first. -/
structure TokenCache where
  capacity : Nat
  entries : List (String × List String)
  hits : Nat
  misses : Nat
deriving DecidableEq, Repr

namespace TokenCache

def empty (capacity : Nat) : TokenCache :=
  ⟨capacity, [], 0, 0⟩

def size (cache : TokenCache) : Nat :=
  cache.entries.length

/-- The token texts of a source, and the cache after the request. -/
def request (cache : TokenCache) (source : String) : List String × TokenCache :=
  match cache.entries.lookup source with
  | some texts =>
    let others := cache.entries.filter fun entry => entry.1 ≠ source
    (texts, { cache with entries := (source, texts) :: others, hits := cache.hits + 1 })
  | none =>
    let texts := tokenTexts source
    let kept := ((source, texts) :: cache.entries).take cache.capacity
    (texts, { cache with entries := kept, misses := cache.misses + 1 })

/-- The answers to requests made one after the other, each with the cache after it. -/
def requests : TokenCache → List String → List (List String × TokenCache)
  | _, [] => []
  | cache, source :: rest => cache.request source :: requests (cache.request source).2 rest

end TokenCache
end ArrayPhrase
