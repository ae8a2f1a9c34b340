import Dynarec.Host.ShortWindow
import Dynarec.Log.Logger
import Dynarec.Main
import Dynarec.Proofs.Check.Differences
import Dynarec.Proofs.Engine.Retry
import Dynarec.Proofs.Graph.Idempotence
import Dynarec.Proofs.Graph.Outline
import Dynarec.Proofs.Graph.Simplify
import Dynarec.Proofs.Graph.TwosComplement
import Dynarec.Proofs.Guest.Arenas
import Dynarec.Proofs.Guest.Widths
import Dynarec.Proofs.Guest.WordText
import Dynarec.Proofs.Host.AddressSpace
import Dynarec.Proofs.Machine.Emission
import Dynarec.Proofs.Native.Acceptance
import Dynarec.Proofs.Native.Convention
import Dynarec.Proofs.Native.Frame
