import Typings.Json.Reader

/-!
Lists and objects: finding the next place inside the brackets, and reading what stands there.
-/

namespace Typings.Json

/-- What stands at the next place of a list or an object. -/
inductive Next (α : Type) where
  | closed (rest : List Char)
  | more (label : α) (rest : List Char)

def nextElement (first : Bool) (cs : List Char) : Except Fault (Next Unit) :=
  match skipSpace cs with
  | [] => .error .endOfList
  | c :: rest =>
    if c = ']' then .ok (.closed rest)
    else if first then .ok (.more () (c :: rest))
    else if c = ',' then
      match skipSpace rest with
      | [] => .error .endOfValue
      | d :: rest => if d = ']' then .error .trailingComma else .ok (.more () (d :: rest))
    else .error .noListSeparator

/-- Passes over the end of a list that may hold no further elements. -/
def closeList (cs : List Char) : Except Fault (List Char) :=
  match skipSpace cs with
  | [] => .error .endOfList
  | c :: rest =>
    if c = ']' then .ok rest
    else if c = ',' && (skipSpace rest).head? = some ']' then .error .trailingComma
    else .error .trailingCharacters

/-- Reads the key whose opening quote is the given character. -/
def memberKey (c : Char) (rest : List Char) : Except Fault (Next String) :=
  if c = '"' then
    match stringBody rest with
    | .ok (s, rest) => .ok (.more (String.ofList s) rest)
    | .error fault => .error fault
  else .error .keyNotString

def nextMember (first : Bool) (cs : List Char) : Except Fault (Next String) :=
  match skipSpace cs with
  | [] => .error .endOfObject
  | c :: rest =>
    if c = Bracket.object.closing then .ok (.closed rest)
    else if first then memberKey c rest
    else if c = ',' then
      match skipSpace rest with
      | [] => .error .endOfValue
      | d :: rest =>
        if d = Bracket.object.closing then .error .trailingComma else memberKey d rest
    else .error .noObjectSeparator

def Next.rest {α : Type} : Next α → List Char
  | .closed rest | .more _ rest => rest

theorem length_nextElement {first : Bool} {cs : List Char} {next : Next Unit}
    (h : nextElement first cs = .ok next) : next.rest.length ≤ cs.length := by
  unfold nextElement at h
  have hle := length_skipSpace_le cs
  split at h
  · cases h
  · next heq =>
    rw [heq, List.length_cons] at hle
    split at h
    · cases h; exact Nat.le_of_lt hle
    · split at h
      · cases h; exact hle
      · split at h
        · split at h
          · cases h
          · next hd =>
            split at h
            · cases h
            · cases h
              have := length_of_skipSpace hd
              simp only [Next.rest, List.length_cons]; omega
        · cases h

theorem length_closed {cs rest : List Char} {first : Bool}
    (h : nextElement first cs = .ok (.closed rest)) : rest.length < cs.length := by
  unfold nextElement at h
  split at h
  · cases h
  · next heq =>
    split at h
    · cases h; exact length_of_skipSpace heq
    · split at h
      · cases h
      · split at h
        · split at h
          · cases h
          · split at h <;> cases h
        · cases h

theorem length_closeList {cs rest : List Char} (h : closeList cs = .ok rest) :
    rest.length < cs.length := by
  unfold closeList at h
  split at h
  · cases h
  · next heq =>
    split at h
    · cases h; exact length_of_skipSpace heq
    · split at h <;> cases h

theorem length_memberKey {c : Char} {cs : List Char} {next : Next String}
    (h : memberKey c cs = .ok next) : next.rest.length < cs.length := by
  unfold memberKey at h
  split at h
  · split at h
    · next hs => cases h; exact length_stringBody hs
    · cases h
  · cases h

theorem length_nextMember {first : Bool} {cs : List Char} {next : Next String}
    (h : nextMember first cs = .ok next) : next.rest.length < cs.length := by
  unfold nextMember at h
  split at h
  · cases h
  · next heq =>
    have := length_of_skipSpace heq
    split at h
    · cases h; exact this
    · split at h
      · exact Nat.lt_trans (length_memberKey h) this
      · split at h
        · split at h
          · cases h
          · next hd =>
            have := length_of_skipSpace hd
            split at h
            · cases h
            · have := length_memberKey h
              omega
        · cases h

def elements {α : Type} (item : Reader α) (first : Bool) (cs : List Char) :
    Except Fault (List α × List Char) :=
  match _hn : nextElement first cs with
  | .error fault => .error fault
  | .ok (.closed rest) => .ok ([], rest)
  | .ok (.more _ start) =>
    match _hi : item.run start with
    | .error fault => .error fault
    | .ok (a, rest) =>
      match elements item false rest with
      | .ok (as, rest) => .ok (a :: as, rest)
      | .error fault => .error fault
termination_by cs.length
decreasing_by exact Nat.lt_of_lt_of_le (item.shrinks _hi) (length_nextElement _hn)

theorem length_elements {α : Type} {item : Reader α} {first : Bool} {cs rest : List Char}
    {as : List α} (h : elements item first cs = .ok (as, rest)) : rest.length < cs.length := by
  fun_induction elements item first cs generalizing as with
  | case2 _ _ _ hn => cases h; exact length_closed hn
  | case4 _ _ _ _ hn _ _ hi _ _ he ih =>
    cases h
    have := ih he
    have := item.shrinks hi
    have := length_nextElement hn
    simp only [Next.rest] at this
    omega
  | _ => cases h

def members {α : Type} (item : Reader α) (first : Bool) (cs : List Char) :
    Except Fault (List (String × α) × List Char) :=
  match _hn : nextMember first cs with
  | .error fault => .error fault
  | .ok (.closed rest) => .ok ([], rest)
  | .ok (.more key start) =>
    match _hc : colon start with
    | .error fault => .error fault
    | .ok start =>
      match _hi : item.run start with
      | .error fault => .error fault
      | .ok (a, rest) =>
        match members item false rest with
        | .ok (as, rest) => .ok ((key, a) :: as, rest)
        | .error fault => .error fault
termination_by cs.length
decreasing_by
  exact Nat.lt_trans (item.shrinks _hi) (Nat.lt_trans (length_colon _hc) (length_nextMember _hn))

theorem length_members {α : Type} {item : Reader α} {first : Bool} {cs rest : List Char}
    {as : List (String × α)} (h : members item first cs = .ok (as, rest)) :
    rest.length < cs.length := by
  fun_induction members item first cs generalizing as with
  | case2 _ _ _ hn => cases h; exact length_nextMember hn
  | case5 _ _ _ _ hn _ hc _ _ hi _ _ hm ih =>
    cases h
    have := ih hm
    have := item.shrinks hi
    have := length_colon hc
    have := length_nextMember hn
    simp only [Next.rest] at this
    omega
  | _ => cases h

/-- A list of items. The levels left count the brackets that may still be opened, so the items have
one less. -/
def Reader.list {α : Type} (item : Nat → Reader α) (levels : Nat) : Reader (List α) :=
  .atValue
    (fun c rest =>
      if c = Bracket.list.opening then
        match levels with
        | 0 => .error .tooDeep
        | levels + 1 => elements (item levels) true rest
      else .error (mismatch .list c rest))
    (by
      intro c cs rest a h
      split at h
      · split at h
        · cases h
        · exact Nat.le_of_lt (length_elements h)
      · cases h)

end Typings.Json
