namespace TreeTally

/-- The texts between the separators: one more than there are separators. -/
def piecesAt (separator : Char) : List Char → List (List Char)
  | [] => [[]]
  | c :: r =>
      if c = separator then [] :: piecesAt separator r
      else match piecesAt separator r with
        | [] => [[c]]
        | p :: ps => (c :: p) :: ps

end TreeTally
