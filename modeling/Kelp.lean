import Kelp.Bytes
import Kelp.CInt
import Kelp.Rs.Tables
import Kelp.Rs.Field
import Kelp.Rs.MatrixInvert
import Kelp.Rs.Cauchy
import Kelp.Rs.Pow
import Kelp.Rs.Vandermonde
import Kelp.Rs.Avx2
import Kelp.Rs.Coder
import Kelp.Rs.Encode
import Kelp.Rs.Decode
import Kelp.Rs.Generic
import Kelp.BlockAio.Register
import Kelp.BlockAio.Crc
import Kelp.BlockAio.Validate
import Kelp.BlockAio.Spread
import Kelp.BlockAio.Header
import Kelp.BlockAio.Aio
import Kelp.BlockAio.AioPort
import Kelp.Bench.Spread
