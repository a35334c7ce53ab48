namespace CallCapture.Text

def hexDigits (n : Nat) : List Char := Nat.toDigits 16 n

/-- The numeral of `n`, padded with zeros so that mark and digits together have at least `width` characters. -/
def hex (n : Nat) (width : Nat := 0) : String :=
  let digits := hexDigits n
  String.ofList ('0' :: 'x' :: (List.replicate (width - 2 - digits.length) '0' ++ digits))

end CallCapture.Text
