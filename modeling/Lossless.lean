import Lossless.Main
import Lossless.Proofs.Cascading
import Lossless.Proofs.Delimited
import Lossless.Proofs.Hidden
import Lossless.Proofs.Locating
import Lossless.Proofs.Mirrored
import Lossless.Proofs.Preorder
import Lossless.Proofs.ReadThrough
import Lossless.Proofs.Reclearing
import Lossless.Proofs.Shifting
import Lossless.Proofs.Tiling
import Lossless.Proofs.Units
