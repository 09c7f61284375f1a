namespace CodeReach.Text

/-- The pieces of `cs` between line feeds; `piece` is the piece begun, in reverse, and `done` are
the finished pieces, in reverse. -/
def segmentsFrom (done : List (List Char)) (piece : List Char) : List Char → List (List Char)
  | [] => (piece.reverse :: done).reverse
  | c :: cs =>
    if c = '\n' then segmentsFrom (piece.reverse :: done) [] cs
    else segmentsFrom done (c :: piece) cs

/-- The pieces between line feeds, one more than there are line feeds. -/
def segments (cs : List Char) : List (List Char) := segmentsFrom [] [] cs

def dropReturn (line : List Char) : List Char :=
  if line.getLast? = some '\r' then line.dropLast else line

def lastLine (piece : List Char) : List (List Char) := if piece = [] then [] else [piece]

def linesOf (pieces : List (List Char)) : List (List Char) :=
  pieces.dropLast.map dropReturn ++ lastLine (pieces.getLastD [])

/-- A line feed ends a line and one carriage return right before it belongs to the ending; what
follows the last line feed is a line unless it is empty, and keeps its carriage return. -/
def lines (cs : List Char) : List (List Char) := linesOf (segments cs)

theorem segmentsFrom_done (done : List (List Char)) (piece cs : List Char) :
    segmentsFrom done piece cs = done.reverse ++ segmentsFrom [] piece cs := by
  induction cs generalizing done piece with
  | nil => simp [segmentsFrom]
  | cons c cs ih =>
    simp only [segmentsFrom]
    split
    · rw [ih, ih [piece.reverse]]
      simp
    · exact ih done (c :: piece)

theorem segmentsFrom_append (piece cs rest : List Char) (h : '\n' ∉ cs) :
    segmentsFrom [] piece (cs ++ rest) = segmentsFrom [] (cs.reverse ++ piece) rest := by
  induction cs generalizing piece with
  | nil => rfl
  | cons c cs ih =>
    have hc : c ≠ '\n' := fun e => h (by simp [e])
    have hcs : '\n' ∉ cs := fun m => h (by simp [m])
    simp [segmentsFrom, hc, ih (c :: piece) hcs]

theorem segments_of_not_mem {cs : List Char} (h : '\n' ∉ cs) : segments cs = [cs] := by
  have := segmentsFrom_append [] cs [] h
  simpa [segments, segmentsFrom] using this

/-- A line feed cuts a text in two whose segments are found apart. -/
theorem segments_append {cs rest : List Char} (h : '\n' ∉ cs) :
    segments (cs ++ '\n' :: rest) = cs :: segments rest := by
  rw [segments, segmentsFrom_append [] cs _ h]
  simp [segmentsFrom, segmentsFrom_done [cs], segments]

theorem not_mem_of_mem_segmentsFrom {piece cs x : List Char} (hp : '\n' ∉ piece)
    (h : x ∈ segmentsFrom [] piece cs) : '\n' ∉ x := by
  induction cs generalizing piece with
  | nil =>
    have hx : x = piece.reverse := by simpa [segmentsFrom] using h
    rw [hx, List.mem_reverse]
    exact hp
  | cons c cs ih =>
    rw [segmentsFrom] at h
    split at h
    · rw [segmentsFrom_done] at h
      rcases List.mem_append.mp h with h | h
      · have hx : x = piece.reverse := by simpa using h
        rw [hx, List.mem_reverse]
        exact hp
      · exact ih List.not_mem_nil h
    · next hc =>
      refine ih (fun hm => ?_) h
      rcases List.mem_cons.mp hm with e | hm
      · exact hc e.symm
      · exact hp hm

theorem not_mem_of_mem_segments {cs x : List Char} (h : x ∈ segments cs) : '\n' ∉ x :=
  not_mem_of_mem_segmentsFrom List.not_mem_nil h

theorem mem_of_mem_dropReturn {line : List Char} {c : Char} (h : c ∈ dropReturn line) :
    c ∈ line := by
  unfold dropReturn at h
  split at h
  · exact List.dropLast_subset _ h
  · exact h

/-- No line holds a line feed. -/
theorem not_mem_of_mem_lines {cs line : List Char} (h : line ∈ lines cs) : '\n' ∉ line := by
  rcases List.mem_append.mp h with h | h
  · obtain ⟨piece, hpiece, e⟩ := List.mem_map.mp h
    intro hm
    rw [← e] at hm
    exact not_mem_of_mem_segments (List.dropLast_subset _ hpiece) (mem_of_mem_dropReturn hm)
  · -- What follows the last line feed is a line only if it is not empty.
    unfold lastLine at h
    split at h
    · cases h
    · next hne =>
      have hline : line = (segments cs).getLastD [] := by simpa using h
      have hs : segments cs ≠ [] := fun e => hne (by rw [e]; rfl)
      rw [List.getLastD_eq_getLast?, List.getLast?_eq_some_getLast hs] at hline
      rw [hline]
      exact not_mem_of_mem_segments (List.getLast_mem hs)

theorem segments_ne_nil (cs : List Char) : segments cs ≠ [] := by
  have hfrom : ∀ piece, segmentsFrom [] piece cs ≠ [] := by
    induction cs with
    | nil =>
      intro piece
      simp [segmentsFrom]
    | cons c cs ih =>
      intro piece
      rw [segmentsFrom]
      split
      · rw [segmentsFrom_done]
        simp
      · exact ih (c :: piece)
  exact hfrom []

theorem lines_append {line rest : List Char} (h : '\n' ∉ line) :
    lines (line ++ '\n' :: rest) = dropReturn line :: lines rest := by
  unfold lines
  rw [segments_append h]
  obtain ⟨piece, pieces, hpieces⟩ := List.exists_cons_of_ne_nil (segments_ne_nil rest)
  rw [hpieces]
  simp [linesOf]

/-- A text of some lines, each with a line feed after it. -/
def unlines (ls : List (List Char)) : List Char := ls.flatMap fun line => line ++ ['\n']

theorem lines_unlines_append {ls : List (List Char)} (h : ∀ line ∈ ls, '\n' ∉ line)
    (rest : List Char) : lines (unlines ls ++ rest) = ls.map dropReturn ++ lines rest := by
  induction ls with
  | nil => rfl
  | cons line ls ih =>
    have hline : '\n' ∉ line := h line List.mem_cons_self
    have hrest := ih fun l hl => h l (List.mem_cons_of_mem _ hl)
    have hcons : unlines (line :: ls) ++ rest = line ++ '\n' :: (unlines ls ++ rest) := by
      simp [unlines]
    rw [hcons, lines_append hline, hrest, List.map_cons, List.cons_append]

theorem lines_unlines {ls : List (List Char)} (h : ∀ line ∈ ls, '\n' ∉ line) :
    lines (unlines ls) = ls.map dropReturn := by
  have hnone : lines [] = [] := rfl
  have hlines := lines_unlines_append h []
  rwa [List.append_nil, hnone, List.append_nil] at hlines

theorem dropReturn_append {xs ys : List Char} (h : ys ≠ []) :
    dropReturn (xs ++ ys) = xs ++ dropReturn ys := by
  have hlast : (xs ++ ys).getLast? = ys.getLast? := by
    rw [List.getLast?_append, List.getLast?_eq_some_getLast h]
    rfl
  unfold dropReturn
  rw [hlast]
  split
  · exact List.dropLast_append_of_ne_nil h
  · rfl

end CodeReach.Text
