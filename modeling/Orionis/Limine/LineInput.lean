import Orionis.Foundations.CString

/-!
# Editing a line

The boot menu lets the user edit the kernel's command line. `gets` of `lib/blib.c` keeps the line
as a string in its buffer and shifts bytes to insert and delete at the cursor. It computes what a
line with a cursor in it computes and stays within its buffer, as long as no key has the code 0:
such a key puts a NUL into the string and leaves the cursor behind it.
-/

namespace Orionis.Limine

open Orionis.Foundations

/-! ## The source -/

/-- `GETCHAR_CURSOR_LEFT`. -/
def getcharCursorLeft : ℤ := -10

/-- `GETCHAR_CURSOR_RIGHT`. -/
def getcharCursorRight : ℤ := -11

/-- `GETCHAR_CURSOR_UP`. -/
def getcharCursorUp : ℤ := -12

/-- `GETCHAR_CURSOR_DOWN`. -/
def getcharCursorDown : ℤ := -13

/-- `getchar_internal`: the scan code of an arrow key decides, and the character otherwise. -/
def getcharInternal (eax : ℕ) : ℤ :=
  if eax / 2 ^ 8 % 2 ^ 8 = 0x4b then getcharCursorLeft
  else if eax / 2 ^ 8 % 2 ^ 8 = 0x4d then getcharCursorRight
  else if eax / 2 ^ 8 % 2 ^ 8 = 0x48 then getcharCursorUp
  else if eax / 2 ^ 8 % 2 ^ 8 = 0x50 then getcharCursorDown
  else (UInt8.ofNat eax).toInt8.toInt

/-- `strlen`, of a string that ends within so many bytes. -/
def strlen (m : Memory) : (fuel a : ℕ) → Option ℕ
  | 0, _ => none
  | fuel + 1, a => if m a = 0 then some 0 else (strlen m fuel (a + 1)).map (· + 1)

/-- The memory and the cursor `i`. -/
structure LineInput where
  mem : Memory
  i : ℕ

/-- The loop that closes the gap of a deleted character. -/
def shiftDown (buf : ℕ) : (fuel j : ℕ) → Memory → Option Memory
  | 0, _, _ => none
  | fuel + 1, j, m =>
    let m' := Function.update m (buf + j) (m (buf + j + 1))
    if m' (buf + j) = 0 then some m' else shiftDown buf fuel (j + 1) m'

/-- The loop that makes room at the cursor, none where the string ends before the cursor and it
passes the beginning of the buffer. -/
def shiftUp (buf i : ℕ) : (j : ℕ) → Memory → Option Memory
  | 0, m =>
    let m' := Function.update m (buf + 0 + 1) (m (buf + 0))
    if 0 = i then some m' else none
  | j + 1, m =>
    let m' := Function.update m (buf + (j + 1) + 1) (m (buf + (j + 1)))
    if j + 1 = i then some m' else shiftUp buf i j m'

/-- One key of `gets` that is not Enter. -/
def getsKey (buf limit : ℕ) (s : LineInput) (c : ℤ) : Option LineInput :=
  if c = getcharCursorLeft then some (if s.i ≠ 0 then { s with i := s.i - 1 } else s)
  else if c = getcharCursorRight then
    (strlen s.mem limit buf).map fun len => if s.i < len then { s with i := s.i + 1 } else s
  else if c = 0x08 then
    if s.i ≠ 0 then (shiftDown buf limit (s.i - 1) s.mem).map (⟨·, s.i - 1⟩) else some s
  else
    (strlen s.mem limit buf).bind fun len =>
      if len < limit - 1 then
        (shiftUp buf s.i len s.mem).map fun m =>
          ⟨Function.update m (buf + s.i) (UInt8.ofInt c), s.i + 1⟩
      else some s

/-- The loop of `gets`, with the keys behind Enter, none inside while the user still types. -/
def getsLoop (buf limit : ℕ) : LineInput → List ℕ → Option (Option (Memory × List ℕ))
  | _, [] => some none
  | s, key :: keys =>
    if getcharInternal key = 0x0D then some (some (s.mem, keys))
    else (getsKey buf limit s (getcharInternal key)).bind fun s => getsLoop buf limit s keys

/-- `gets`. -/
def gets (m : Memory) (origStr buf limit : ℕ) (keys : List ℕ) :
    Option (Option (Memory × List ℕ)) :=
  (strlen m limit origStr).bind fun len =>
    let m := storeBytes m buf (loadBytes m len origStr)
    getsLoop buf limit ⟨Function.update m (buf + len) 0, len⟩ keys

/-! ## A line with a cursor -/

/-- The characters before the cursor, the nearest first, and those behind it. -/
structure EditLine where
  before : List UInt8
  behind : List UInt8

/-- The whole line. -/
def EditLine.text (t : EditLine) : List UInt8 := t.before.reverse ++ t.behind

/-- The cursor moves over one character, a backspace deletes the one before it, and any other key
inserts a character where the line has room. -/
def EditLine.key (limit : ℕ) (t : EditLine) (c : ℤ) : EditLine :=
  if c = getcharCursorLeft then
    match t.before with
    | [] => t
    | x :: before => ⟨before, x :: t.behind⟩
  else if c = getcharCursorRight then
    match t.behind with
    | [] => t
    | x :: behind => ⟨x :: t.before, behind⟩
  else if c = 0x08 then ⟨t.before.tail, t.behind⟩
  else if t.text.length < limit - 1 then ⟨UInt8.ofInt c :: t.before, t.behind⟩
  else t

/-- The line at Enter and the keys behind it. -/
def EditLine.enter (limit : ℕ) : EditLine → List ℕ → Option (List UInt8 × List ℕ)
  | _, [] => none
  | t, key :: keys =>
    if getcharInternal key = 0x0D then some (t.text, keys)
    else (t.key limit (getcharInternal key)).enter limit keys

/-! ## The loops -/

section Loops

variable {m : Memory} {a buf i j fuel : ℕ} {d : UInt8} {text rest : List UInt8}

/-- The length of a string that ends within the limit. -/
theorem strlen_spec (hs : StringAt m a text) (hfuel : text.length < fuel) :
    strlen m fuel a = some text.length := by
  induction fuel generalizing a text with
  | zero => exact absurd hfuel (Nat.not_lt_zero _)
  | succ fuel ih =>
    cases text with
    | nil =>
      have hz : m a = 0 := hs
      simp [strlen, hz]
    | cons c text =>
      obtain ⟨hc, hne, hrest⟩ := hs
      simp [strlen, hc, hne, ih hrest (Nat.lt_of_succ_lt_succ hfuel)]

/-- The characters behind a deleted one move down over it. -/
theorem shiftDown_spec (hs : StringAt m (buf + j) (d :: rest)) (hfuel : rest.length < fuel) :
    ∃ m', shiftDown buf fuel j m = some m' ∧ StringAt m' (buf + j) rest ∧
      ∀ x, x < buf + j ∨ buf + j + rest.length < x → m' x = m x := by
  induction fuel generalizing m j d rest with
  | zero => exact absurd hfuel (Nat.not_lt_zero _)
  | succ fuel ih =>
    obtain ⟨-, -, hrest⟩ := hs
    cases rest with
    | nil =>
      have hz : m (buf + j + 1) = 0 := hrest
      refine ⟨Function.update m (buf + j) 0, by simp [shiftDown, hz], Function.update_self .., ?_⟩
      intro x hx
      rw [List.length_nil] at hx
      exact Function.update_of_ne (by omega) ..
    | cons e rest =>
      obtain ⟨he, hne, hlater⟩ := id hrest
      have hmoved : StringAt (Function.update m (buf + j) e) (buf + (j + 1)) (e :: rest) :=
        hrest.congr fun x hx _ => Function.update_of_ne (by omega) ..
      obtain ⟨m', hrun, hs', hframe⟩ := ih hmoved (Nat.lt_of_succ_lt_succ hfuel)
      refine ⟨m', by simp [shiftDown, he, hne, hrun], ⟨?_, hne, hs'⟩, ?_⟩
      · rw [hframe (buf + j) (by omega), Function.update_self]
      · intro x hx
        rw [List.length_cons] at hx
        rw [hframe x (by omega), Function.update_of_ne (by omega)]

/-- The bytes from the cursor on move up by one. -/
theorem shiftUp_spec (m : Memory) (buf : ℕ) (hij : i ≤ j) :
    ∃ m', shiftUp buf i j m = some m' ∧
      (∀ k, i ≤ k → k ≤ j → m' (buf + k + 1) = m (buf + k)) ∧
      ∀ x, x ≤ buf + i ∨ buf + j + 1 < x → m' x = m x := by
  induction j generalizing m with
  | zero =>
    obtain rfl : i = 0 := Nat.le_zero.1 hij
    refine ⟨_, by rw [shiftUp, if_pos rfl], ?_, ?_⟩
    · intro k _ hk
      obtain rfl : k = 0 := Nat.le_zero.1 hk
      exact Function.update_self ..
    · intro x hx
      exact Function.update_of_ne (by omega) ..
  | succ j ih =>
    let m₁ := Function.update m (buf + (j + 1) + 1) (m (buf + (j + 1)))
    by_cases hlast : j + 1 = i
    · refine ⟨m₁, by rw [shiftUp, if_pos hlast], ?_, ?_⟩
      · intro k hlo hhi
        obtain rfl : k = j + 1 := by omega
        exact Function.update_self ..
      · intro x hx
        exact Function.update_of_ne (by omega) ..
    · obtain ⟨m', hrun, hmoved, hframe⟩ := ih m₁ (by omega)
      refine ⟨m', by rw [shiftUp, if_neg hlast, hrun], ?_, ?_⟩
      · intro k hlo hhi
        by_cases hk : k = j + 1
        · subst hk
          rw [hframe _ (by omega)]
          exact Function.update_self ..
        · rw [hmoved k hlo (by omega)]
          exact Function.update_of_ne (by omega) ..
      · intro x hx
        rw [hframe x (by omega)]
        exact Function.update_of_ne (by omega) ..

end Loops

/-! ## The buffer holds the line -/

/-- The buffer holds the text of a line, and the cursor stands where it does in the line. -/
structure LineInput.Holds (s : LineInput) (buf limit : ℕ) (t : EditLine) : Prop where
  text : StringAt s.mem buf t.text
  cursor : s.i = t.before.length
  short : t.text.length < limit

/-- Two memories agree outside a buffer. -/
def SameOutside (buf limit : ℕ) (m m' : Memory) : Prop :=
  ∀ x, x < buf ∨ buf + limit ≤ x → m' x = m x

section Keys

variable {s : LineInput} {buf limit : ℕ} {t : EditLine} {c : ℤ}

/-- `strlen` of the buffer is the length of the line. -/
theorem LineInput.Holds.length (h : s.Holds buf limit t) :
    strlen s.mem limit buf = some t.text.length := strlen_spec h.text h.short

/-- A backspace deletes the character before the cursor. -/
theorem LineInput.Holds.delete {x : UInt8} {before behind : List UInt8}
    (h : s.Holds buf limit ⟨x :: before, behind⟩) :
    ∃ m, shiftDown buf limit (s.i - 1) s.mem = some m ∧
      (⟨m, s.i - 1⟩ : LineInput).Holds buf limit ⟨before, behind⟩ ∧
      SameOutside buf limit s.mem m := by
  obtain ⟨htext, hcursor, hshort⟩ := h
  have hi : s.i - 1 = before.reverse.length := by simp [hcursor]
  have hline : before.reverse ++ x :: behind = EditLine.text ⟨x :: before, behind⟩ := by
    simp [EditLine.text]
  rw [← hline] at htext hshort
  simp only [List.length_append, List.length_cons] at hshort
  have hfuel : behind.length < limit := by omega
  obtain ⟨m, hrun, hrest, hframe⟩ := shiftDown_spec htext.tail hfuel
  rw [hi]
  refine ⟨m, hrun, ⟨htext.replace (fun y _ hy => hframe y (Or.inl hy)) hrest, ?_, ?_⟩, ?_⟩
  · simp
  · simp only [EditLine.text, List.length_append]
    omega
  · intro y hy
    exact hframe y (by omega)

/-- A character is inserted at the cursor. -/
theorem LineInput.Holds.insert {d : UInt8} (h : s.Holds buf limit t) (hd : d ≠ 0)
    (hroom : t.text.length < limit - 1) :
    ∃ m, shiftUp buf s.i t.text.length s.mem = some m ∧
      (⟨Function.update m (buf + s.i) d, s.i + 1⟩ : LineInput).Holds buf limit
        ⟨d :: t.before, t.behind⟩ ∧
      SameOutside buf limit s.mem (Function.update m (buf + s.i) d) := by
  obtain ⟨htext, hcursor, hshort⟩ := h
  have hi : s.i = t.before.reverse.length := by simp [hcursor]
  have hlen : t.text.length = s.i + t.behind.length := by simp [EditLine.text, hcursor]
  obtain ⟨m, hrun, hmoved, hframe⟩ := shiftUp_spec s.mem buf (show s.i ≤ t.text.length by omega)
  have hbehind : StringAt (Function.update m (buf + s.i) d) (buf + s.i) (d :: t.behind) := by
    refine ⟨Function.update_self .., hd, ?_⟩
    rw [EditLine.text] at htext
    refine (hi ▸ htext.tail).shift fun k hk => ?_
    rw [Function.update_of_ne (by omega), Nat.add_right_comm, Nat.add_assoc buf]
    exact hmoved (s.i + k) (by omega) (by omega)
  have hline : EditLine.text ⟨d :: t.before, t.behind⟩ = t.before.reverse ++ d :: t.behind := by
    simp [EditLine.text]
  refine ⟨m, hrun, ⟨?_, by simp [hcursor], ?_⟩, ?_⟩
  · rw [hline]
    refine StringAt.replace htext (fun y _ hy => ?_) (hi ▸ hbehind)
    exact (Function.update_of_ne (by omega) ..).trans (hframe y (by omega))
  · rw [hline]
    simp only [List.length_append, List.length_cons]
    omega
  · intro y hy
    rw [Function.update_of_ne (by omega), hframe y (by omega)]

/-- One key changes the buffer as it changes the line, and nothing outside it. -/
theorem LineInput.Holds.key (h : s.Holds buf limit t) (hc : UInt8.ofInt c ≠ 0) :
    ∃ s', getsKey buf limit s c = some s' ∧ s'.Holds buf limit (t.key limit c) ∧
      SameOutside buf limit s.mem s'.mem := by
  have hsame : SameOutside buf limit s.mem s.mem := fun _ _ => rfl
  unfold getsKey EditLine.key
  by_cases hleft : c = getcharCursorLeft
  · simp only [if_pos hleft]
    obtain ⟨htext, hcursor, hshort⟩ := id h
    obtain ⟨before, behind⟩ := t
    cases before with
    | nil => exact ⟨s, by simp [show s.i = 0 from hcursor], h, hsame⟩
    | cons x before =>
      have hline : EditLine.text ⟨before, x :: behind⟩ = EditLine.text ⟨x :: before, behind⟩ := by
        simp [EditLine.text]
      have hi : s.i = before.length + 1 := hcursor
      refine ⟨{ s with i := s.i - 1 }, by simp [hi], ⟨?_, ?_, ?_⟩, hsame⟩
      · rwa [hline]
      · simp [hi]
      · rwa [hline]
  by_cases hright : c = getcharCursorRight
  · simp only [if_neg hleft, if_pos hright, h.length]
    obtain ⟨htext, hcursor, hshort⟩ := id h
    obtain ⟨before, behind⟩ := t
    have hlen : EditLine.text ⟨before, behind⟩ = before.reverse ++ behind := rfl
    cases behind with
    | nil => exact ⟨s, by simp [hlen, show s.i = before.length from hcursor], h, hsame⟩
    | cons x behind =>
      have hline : EditLine.text ⟨x :: before, behind⟩ = EditLine.text ⟨before, x :: behind⟩ := by
        simp [EditLine.text]
      have hi : s.i = before.length := hcursor
      refine ⟨{ s with i := s.i + 1 }, by simp [hlen, hi], ⟨?_, ?_, ?_⟩, hsame⟩
      · rwa [hline]
      · simp [hi]
      · rwa [hline]
  by_cases hback : c = 0x08
  · simp only [if_neg hleft, if_neg hright, if_pos hback]
    obtain ⟨before, behind⟩ := t
    cases before with
    | nil => exact ⟨s, by simp [show s.i = 0 from h.cursor], h, hsame⟩
    | cons x before =>
      obtain ⟨m, hrun, hholds, hframe⟩ := h.delete
      have hi : s.i ≠ 0 := by simp [h.cursor]
      exact ⟨⟨m, s.i - 1⟩, by simp [hi, hrun], hholds, hframe⟩
  simp only [if_neg hleft, if_neg hright, if_neg hback, h.length, Option.bind_some]
  by_cases hroom : t.text.length < limit - 1
  · obtain ⟨m, hrun, hholds, hframe⟩ := h.insert hc hroom
    rw [if_pos hroom, if_pos hroom, hrun]
    exact ⟨_, rfl, hholds, hframe⟩
  · rw [if_neg hroom, if_neg hroom]
    exact ⟨s, rfl, h, hsame⟩

/-- A key that is inserted into the line. -/
def Inserts (c : ℤ) : Prop := c ≠ getcharCursorLeft ∧ c ≠ getcharCursorRight ∧ c ≠ 0x08

/-- What is left of a round where the key is inserted. -/
theorem getsKey_inserts (hc : Inserts c) :
    getsKey buf limit s c = (strlen s.mem limit buf).bind fun len =>
      if len < limit - 1 then
        (shiftUp buf s.i len s.mem).map fun m =>
          ⟨Function.update m (buf + s.i) (UInt8.ofInt c), s.i + 1⟩
      else some s := by
  obtain ⟨hleft, hright, hback⟩ := hc
  rw [getsKey, if_neg hleft, if_neg hright, if_neg hback]

/-- Where the string ends before the cursor, the loop passes the beginning of the buffer. -/
theorem shiftUp_of_lt {i j : ℕ} (h : j < i) (m : Memory) (buf : ℕ) : shiftUp buf i j m = none := by
  induction j generalizing m with
  | zero => exact if_neg (by omega)
  | succ j ih => exact (if_neg (by omega)).trans (ih (by omega) _)

/-- A key with the code 0 ends the string at the cursor, and the next character that is inserted
takes the loop out of the buffer. -/
theorem LineInput.Holds.nul_key (h : s.Holds buf limit t) (hroom : t.text.length < limit - 1)
    (hc : Inserts c) (hnul : UInt8.ofInt c = 0) :
    ∃ s', getsKey buf limit s c = some s' ∧ StringAt s'.mem buf t.before.reverse ∧
      ∀ c', Inserts c' → getsKey buf limit s' c' = none := by
  obtain ⟨htext, hcursor, hshort⟩ := id h
  have hi : s.i = t.before.reverse.length := by simp [hcursor]
  have hlen : t.text.length = s.i + t.behind.length := by simp [EditLine.text, hcursor]
  obtain ⟨m, hrun, -, hframe⟩ := shiftUp_spec s.mem buf (show s.i ≤ t.text.length by omega)
  have hcut : StringAt (Function.update m (buf + s.i) 0) buf t.before.reverse := by
    refine StringAt.congr (hi ▸ htext.cut) fun x _ hx => ?_
    by_cases hlast : x = buf + s.i
    · rw [hlast, Function.update_self, Function.update_self]
    · rw [Function.update_of_ne hlast, Function.update_of_ne hlast, hframe x (by omega)]
  refine ⟨⟨Function.update m (buf + s.i) 0, s.i + 1⟩, ?_, hcut, fun c' hc' => ?_⟩
  · rw [getsKey_inserts hc, h.length, Option.bind_some, if_pos hroom, hrun, hnul]
    rfl
  · rw [getsKey_inserts hc', strlen_spec hcut (by omega), Option.bind_some, if_pos (by omega), ← hi,
      shiftUp_of_lt (Nat.lt_succ_self s.i)]
    rfl

/-- `gets` edits the string it is given as a line with a cursor behind it, returns at Enter with
the text of the line in its buffer, and writes nothing outside the buffer. -/
theorem getsLoop_spec (h : s.Holds buf limit t) {keys : List ℕ}
    (hkeys : ∀ key ∈ keys, UInt8.ofInt (getcharInternal key) ≠ 0) :
    match t.enter limit keys with
    | none => getsLoop buf limit s keys = some none
    | some (text, rest) => ∃ m, getsLoop buf limit s keys = some (some (m, rest)) ∧
        StringAt m buf text ∧ text.length < limit ∧ SameOutside buf limit s.mem m := by
  induction keys generalizing s t with
  | nil => rfl
  | cons key keys ih =>
    obtain ⟨hkey, hkeys⟩ := List.forall_mem_cons.1 hkeys
    rw [EditLine.enter, getsLoop]
    by_cases henter : getcharInternal key = 0x0D
    · rw [if_pos henter, if_pos henter]
      exact ⟨s.mem, rfl, h.text, h.short, fun _ _ => rfl⟩
    · rw [if_neg henter, if_neg henter]
      obtain ⟨s', hstep, hholds, hsame⟩ := h.key hkey
      have hrest := ih hholds hkeys
      rw [hstep, Option.bind_some]
      cases hline : (t.key limit (getcharInternal key)).enter limit keys with
      | none => simpa [hline] using hrest
      | some result =>
        rw [hline] at hrest
        obtain ⟨m, hrun, htext, hshort, hlater⟩ := hrest
        exact ⟨m, hrun, htext, hshort, fun x hx => (hlater x hx).trans (hsame x hx)⟩

end Keys

/-- `gets` begins with the string in its buffer and the cursor behind it. -/
theorem gets_start {m : Memory} {origStr buf limit : ℕ} {text : List UInt8}
    (htext : StringAt m origStr text) (hshort : text.length < limit) (keys : List ℕ) :
    ∃ start : LineInput, gets m origStr buf limit keys = getsLoop buf limit start keys ∧
      start.Holds buf limit ⟨text.reverse, []⟩ ∧ SameOutside buf limit m start.mem := by
  let copied := storeBytes m buf (loadBytes m text.length origStr)
  let start : LineInput := ⟨Function.update copied (buf + text.length) 0, text.length⟩
  have hcopy : StringAt start.mem buf text := by
    refine htext.shift fun k hk => ?_
    cases Nat.lt_or_eq_of_le hk with
    | inl hlt =>
      exact (Function.update_of_ne (by omega) ..).trans (storeBytes_loadBytes m m hlt)
    | inr heq => exact heq ▸ (Function.update_self ..).trans htext.nul.symm
  refine ⟨start, ?_, ⟨?_, List.length_reverse.symm, ?_⟩, ?_⟩
  · rw [gets, strlen_spec htext hshort]
    rfl
  · simpa [EditLine.text] using hcopy
  · simpa [EditLine.text] using hshort
  · intro x hx
    have hlen := length_loadBytes m text.length origStr
    refine (Function.update_of_ne (by omega) ..).trans (storeBytes_of_outside _ _ _ _ ?_)
    omega

/-- For every string that fits the buffer and every sequence of keys without the code 0, `gets`
returns at Enter with the line as it was edited, and no byte outside the buffer changes. -/
theorem gets_spec {m : Memory} {origStr buf limit : ℕ} {text : List UInt8}
    (htext : StringAt m origStr text) (hshort : text.length < limit) {keys : List ℕ}
    (hkeys : ∀ key ∈ keys, UInt8.ofInt (getcharInternal key) ≠ 0) :
    match (⟨text.reverse, []⟩ : EditLine).enter limit keys with
    | none => gets m origStr buf limit keys = some none
    | some (line, rest) => ∃ m', gets m origStr buf limit keys = some (some (m', rest)) ∧
        StringAt m' buf line ∧ line.length < limit ∧ SameOutside buf limit m m' := by
  obtain ⟨start, hgets, hholds, hstart⟩ := @gets_start m origStr buf limit text htext hshort keys
  have hloop := getsLoop_spec hholds hkeys
  rw [hgets]
  cases hline : (⟨text.reverse, []⟩ : EditLine).enter limit keys with
  | none => simpa [hline] using hloop
  | some result =>
    rw [hline] at hloop
    obtain ⟨m', hrun, htext', hshort', hsame⟩ := hloop
    exact ⟨m', hrun, htext', hshort', fun x hx => (hsame x hx).trans (hstart x hx)⟩

/-- `quiet`, two times cursor left, a character, a backspace, another one and Enter. -/
def editKeys : List ℕ := [0x4B00, 0x4B00, 0x2D78, 0x0E08, 0x1579, 0x1C0D, 0x1C0D]

/-- The memory before. -/
def quietMemory : Memory := storeBytes (fun _ => 0) 0x800 (ascii "quiet")

/-- The keys put one character into the line, and those behind Enter are left. -/
theorem gets_spec_quiet :
    StringAt quietMemory 0x800 (ascii "quiet") ∧
      (∀ key ∈ editKeys, UInt8.ofInt (getcharInternal key) ≠ 0) ∧
      ∃ m, gets quietMemory 0x800 0x800 0x400 editKeys = some (some (m, [0x1C0D])) ∧
        StringAt m 0x800 (ascii "quiyet") := by
  have htext : StringAt quietMemory 0x800 (ascii "quiet") := by decide
  have hkeys : ∀ key ∈ editKeys, UInt8.ofInt (getcharInternal key) ≠ 0 := by decide
  have h := @gets_spec quietMemory 0x800 0x800 0x400 _ htext (by decide) editKeys hkeys
  rw [show (⟨(ascii "quiet").reverse, []⟩ : EditLine).enter 0x400 editKeys =
    some (ascii "quiyet", [0x1C0D]) by decide] at h
  obtain ⟨m, hrun, hline, -, -⟩ := h
  exact ⟨htext, hkeys, m, hrun, hline⟩

end Orionis.Limine
