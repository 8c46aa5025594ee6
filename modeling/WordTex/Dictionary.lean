/-! # Dictionaries as lists of entries in the order of their keys

Keys are ordered by code point, which is also the order of their UTF-8 bytes. -/
namespace WordTex

abbrev Dictionary (α : Type) := List (String × α)

namespace Dictionary

variable {α β : Type}

/-- The entry of a key replaces an earlier one. -/
def insert (k : String) (v : α) : Dictionary α → Dictionary α
  | [] => [(k, v)]
  | (k', v') :: rest =>
    if k = k' then (k, v) :: rest
    else if k < k' then (k, v) :: (k', v') :: rest
    else (k', v') :: insert k v rest

def get? (k : String) : Dictionary α → Option α
  | [] => none
  | (k', v) :: rest => if k = k' then some v else get? k rest

def keys (d : Dictionary α) : List String := d.map Prod.fst

/-- Of several pairs with one key the last counts. -/
def ofPairs (pairs : List (String × α)) : Dictionary α :=
  pairs.foldl (fun d p => insert p.1 p.2 d) []

end Dictionary

end WordTex
