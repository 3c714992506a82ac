namespace TreeTally.Utf8

def continuation? (b : UInt8) : Option Nat :=
  if 0x80 ≤ b ∧ b < 0xc0 then some (b.toNat - 0x80) else none

def charAbove? (least value : Nat) : Option Char :=
  if h : least ≤ value ∧ value.isValidChar then some (Char.ofNatAux value h.2) else none

def decode? : List UInt8 → Option (List Char)
  | [] => some []
  | a :: r =>
      if a < 0x80 then (decode? r).map (Char.ofNat a.toNat :: ·)
      else if a < 0xc0 then none
      else if a < 0xe0 then
        match r with
        | b :: r => do
            let c ← charAbove? 0x80 ((a.toNat - 0xc0) * 64 + (← continuation? b))
            return c :: (← decode? r)
        | _ => none
      else if a < 0xf0 then
        match r with
        | b :: c :: r => do
            let c ← charAbove? 0x800
              (((a.toNat - 0xe0) * 64 + (← continuation? b)) * 64 + (← continuation? c))
            return c :: (← decode? r)
        | _ => none
      else if a < 0xf8 then
        match r with
        | b :: c :: d :: r => do
            let c ← charAbove? 0x10000
              ((((a.toNat - 0xf0) * 64 + (← continuation? b)) * 64 + (← continuation? c)) * 64
                + (← continuation? d))
            return c :: (← decode? r)
        | _ => none
      else none

end TreeTally.Utf8
