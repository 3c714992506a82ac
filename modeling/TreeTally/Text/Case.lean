namespace TreeTally

def lowerCase (l : List Char) : List Char := l.map Char.toLower

end TreeTally
