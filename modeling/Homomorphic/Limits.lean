namespace Homomorphic.Limits

def defaultKeySize : Nat := 2048

def minKeySize : Nat := 512

def maxKeygenAttempts : Nat := 1000

def maxPrimeCandidates : Nat := 100000

def maxRandomAttempts : Nat := 1000

def windowBits : Nat := 4

def defaultScale : Nat := 10000

def defaultMaxPlaintext : Nat := 1 <<< 24

def defaultTableBits : Nat := 12

def maxTableBits : Nat := 20

def maxMaxPlaintext : Nat := 1 <<< 44

/-- Largest quotient of a plaintext bound by the number of baby steps. -/
def maxGiantSteps : Nat := 1 <<< 24

def maxWireBytes : Nat := 1 <<< 20

def minPrimeBits : Nat := 16

def sieveLimit : Nat := 2000

end Homomorphic.Limits
